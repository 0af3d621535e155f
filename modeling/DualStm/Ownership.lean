import DualStm.Segment

/-!
# Ownership of a word within an epoch

What each word operation does to its own word and to the rest of the segment,
and the invariant they keep. `WordInv w m buf` says that the word `w` stands for
an epoch-start value `m` and for the private writes `buf` of the transactions of
the epoch (`buf tx` is what `tx` last wrote, unless it released the word): the
committed copy is `m`, a transaction has a private write exactly when it is the
owner of a written word, and that write is the writable copy.

One owner field is enough for this much: there is at most one private write per
word (`WordInv.unique`), a read returns the reader's own write or `m`, and the
flip at the end of the epoch commits the one private write there is.
-/

namespace DualStm

variable {W : Type}

/-- The parts of a segment no word operation touches. -/
structure SameShape (seg seg' : Segment W) : Prop where
  /-- the number of words -/
  nWords : seg'.nWords = seg.nWords
  /-- the alignment -/
  align : seg'.align = seg.align
  /-- the freeing transaction -/
  deregistered : seg'.deregistered = seg.deregistered

theorem SameShape.refl (seg : Segment W) : SameShape seg seg := ⟨rfl, rfl, rfl⟩

theorem SameShape.trans {a b c : Segment W} (h : SameShape a b) (h' : SameShape b c) :
    SameShape a c :=
  ⟨h'.nWords.trans h.nWords, h'.align.trans h.align, h'.deregistered.trans h.deregistered⟩

theorem sameShape_setControl (seg : Segment W) (j : ℕ) (c : Control) :
    SameShape seg (seg.setControl j c) := ⟨rfl, rfl, rfl⟩

theorem sameShape_writeToCorrectCopy (seg : Segment W) (j : ℕ) (src : W) :
    SameShape seg (writeToCorrectCopy j src seg) := by
  unfold writeToCorrectCopy
  split <;> exact ⟨rfl, rfl, rfl⟩

theorem sameShape_readWord (seg : Segment W) (tx : ℕ) (ro : Bool) (j : ℕ) :
    SameShape seg (readWord seg tx ro j).2 := by
  unfold readWord
  split
  · exact .refl seg
  · simp only
    split
    · split
      · exact sameShape_setControl ..
      · exact .refl seg
    · split <;> exact .refl seg

theorem sameShape_writeWord {seg seg' : Segment W} {tx j : ℕ} {src : W}
    (hw : writeWord seg tx j src = some seg') : SameShape seg seg' := by
  unfold writeWord at hw
  simp only at hw
  split at hw
  · split at hw
    · obtain rfl := Option.some.inj hw
      exact sameShape_writeToCorrectCopy ..
    · cases hw
  · split at hw
    · cases hw
    · obtain rfl := Option.some.inj hw
      exact (sameShape_setControl ..).trans (sameShape_writeToCorrectCopy ..)

theorem sameShape_releaseWord (seg : Segment W) (tx j : ℕ) :
    SameShape seg (releaseWord seg tx j) := by
  unfold releaseWord
  split
  · exact sameShape_setControl ..
  · exact .refl seg

/-! ## The other words

`read_word`, `write_word`, `release_word` and `commit_word` work on one word. All others have
the control and the two copies that they had. -/

theorem word_readWord_ne (seg : Segment W) (tx : ℕ) (ro : Bool) {j k : ℕ} (hk : k ≠ j) :
    (readWord seg tx ro j).2.word k = seg.word k := by
  unfold readWord
  split
  · rfl
  · simp only
    split
    · split
      · exact word_setControl_ne _ _ _ _ hk
      · rfl
    · split <;> rfl

theorem word_writeWord_ne {seg seg' : Segment W} {tx j k : ℕ} {src : W}
    (hw : writeWord seg tx j src = some seg') (hk : k ≠ j) : seg'.word k = seg.word k := by
  unfold writeWord at hw
  simp only at hw
  split at hw
  · split at hw
    · obtain rfl := Option.some.inj hw
      exact word_writeToCorrectCopy_ne _ _ _ _ hk
    · cases hw
  · split at hw
    · cases hw
    · obtain rfl := Option.some.inj hw
      rw [word_writeToCorrectCopy_ne _ _ _ _ hk, word_setControl_ne _ _ _ _ hk]

theorem word_releaseWord_ne (seg : Segment W) (tx : ℕ) {j k : ℕ} (hk : k ≠ j) :
    (releaseWord seg tx j).word k = seg.word k := by
  unfold releaseWord
  split
  · exact word_setControl_ne _ _ _ _ hk
  · rfl

/-- The loop of the commit treats every word on its own. -/
theorem word_commitSegment (seg : Segment W) (j : ℕ) :
    (commitSegment seg).word j =
      if j < seg.nWords then { seg.word j with control := commitWord (seg.control j) }
      else seg.word j := by
  have hloop : ∀ n : ℕ, (List.range n).foldl
      (fun control j => Function.update control j (commitWord (control j))) seg.control j =
        if j < n then commitWord (seg.control j) else seg.control j := by
    intro n
    induction n with
    | zero => rfl
    | succ n ih =>
      rw [List.range_succ, List.foldl_append, List.foldl_cons, List.foldl_nil]
      obtain rfl | hj := eq_or_ne j n
      · rw [Function.update_self, ih, if_neg (Nat.lt_irrefl _), if_pos (Nat.lt_succ_self _)]
      · rw [Function.update_of_ne hj, ih]
        by_cases hlt : j < n
        · rw [if_pos hlt, if_pos (Nat.lt_succ_of_lt hlt)]
        · rw [if_neg hlt, if_neg (by omega)]
  have hctl : (commitSegment seg).control j =
      if j < seg.nWords then commitWord (seg.control j) else seg.control j := hloop seg.nWords
  by_cases hj : j < seg.nWords
  · rw [if_pos hj] at hctl ⊢
    exact Word.ext hctl rfl rfl
  · rw [if_neg hj] at hctl ⊢
    exact Word.ext hctl rfl rfl

/-! ## The word itself

The word itself comes to be owned by the transaction, or to have several readers, and which of
the two copies is read from changes at a commit only. -/

/-- A read returns a copy of the word, and at most makes the reader its owner. -/
theorem word_readWord (seg : Segment W) (tx : ℕ) (ro : Bool) (j : ℕ) :
    ((readWord seg tx ro j).2.word j = seg.word j ∨
      ((seg.word j).control.wordHasBeenWritten = false ∧ (seg.word j).control.accessSet = NONE ∧
        (readWord seg tx ro j).2.word j =
          { seg.word j with control := { (seg.word j).control with accessSet := tx } })) ∧
      ∀ {v}, (readWord seg tx ro j).1 = some v →
        if ro = true ∨ (seg.word j).control.wordHasBeenWritten = false then
          v = (seg.word j).readOnly
        else (seg.word j).control.accessSet = tx ∧ v = (seg.word j).writable := by
  rw [readWord]
  by_cases hro : ro = true
  · rw [if_pos hro]
    refine ⟨.inl rfl, fun hv => ?_⟩
    rw [if_pos (.inl hro)]
    exact (Option.some.inj hv).symm
  · simp only [if_neg hro]
    by_cases hwr : (seg.control j).wordHasBeenWritten = false
    · simp only [if_pos hwr]
      have hcopy : ∀ {v}, (seg.word j).readOnly = v →
          if ro = true ∨ (seg.word j).control.wordHasBeenWritten = false then
            v = (seg.word j).readOnly
          else (seg.word j).control.accessSet = tx ∧ v = (seg.word j).writable := by
        intro v hv
        rw [if_pos (.inr hwr)]
        exact hv.symm
      by_cases hfree : (seg.control j).accessSet = NONE
      · -- the first access: only the owner changes
        rw [if_pos hfree, word_setControl_self]
        refine ⟨.inr ⟨hwr, hfree, rfl⟩, fun hv => hcopy ?_⟩
        rw [← Option.some.inj hv, readReadOnlyCopy_eq, word_setControl_self]
        rfl
      · rw [if_neg hfree]
        exact ⟨.inl rfl, fun hv => hcopy (Option.some.inj hv)⟩
    · simp only [if_neg hwr]
      split
      · rename_i howner
        have hn : ¬ (ro = true ∨ (seg.word j).control.wordHasBeenWritten = false) :=
          not_or.mpr ⟨hro, hwr⟩
        refine ⟨.inl rfl, fun hv => ?_⟩
        rw [if_neg hn]
        exact ⟨howner.2, (Option.some.inj hv).symm⟩
      · exact ⟨.inl rfl, fun hv => by cases hv⟩

/-- A write succeeds on the writer's own word or on a word without owner, and
makes the writer the owner of a written word. -/
theorem word_writeWord {seg seg' : Segment W} {tx j : ℕ} {v : W}
    (hs : writeWord seg tx j v = some seg') :
    ((seg.word j).control.accessSet = tx ∨ (seg.word j).control.wordHasBeenWritten = false ∧
      (seg.word j).control.accessSet = NONE) ∧
      seg'.word j = Word.store { seg.word j with
        control := { (seg.word j).control with accessSet := tx, wordHasBeenWritten := true } }
        v := by
  simp only [writeWord] at hs
  split at hs
  · rename_i hwr
    split at hs
    · rename_i hacc
      obtain rfl := Option.some.inj hs
      have hctl : ({ (seg.word j).control with accessSet := tx, wordHasBeenWritten := true } :
          Control) = (seg.word j).control := by
        rw [← hacc, ← hwr]
        rfl
      rw [word_writeToCorrectCopy_self, hctl]
      exact ⟨.inl hacc, rfl⟩
    · cases hs
  · rename_i hwr
    split at hs
    · cases hs
    · rename_i hacc
      obtain rfl := Option.some.inj hs
      rw [word_writeToCorrectCopy_self, word_setControl_self]
      refine ⟨?_, rfl⟩
      rcases eq_or_ne (seg.control j).accessSet NONE with hnone | hsome
      · exact .inr ⟨Bool.eq_false_iff.mpr hwr, hnone⟩
      · refine .inl ?_
        by_contra hne
        exact hacc ⟨hsome, hne⟩

/-- The abort loop clears the word if its transaction owns it and has written it. -/
theorem word_releaseWord (seg : Segment W) (tx j : ℕ) :
    (releaseWord seg tx j).word j =
      if (seg.word j).control.accessSet = tx ∧ (seg.word j).control.wordHasBeenWritten = true then
        { seg.word j with
          control := { (seg.word j).control with accessSet := NONE, wordHasBeenWritten := false } }
      else seg.word j := by
  rw [releaseWord]
  by_cases hc : (seg.control j).accessSet = tx ∧ (seg.control j).wordHasBeenWritten = true
  · rw [if_pos hc, word_setControl_self]
    exact (if_pos hc).symm
  · rw [if_neg hc]
    exact (if_neg hc).symm

/-- The protocol of one word: epoch-start value `m`, private writes `buf`. -/
structure WordInv (w : Word W) (m : W) (buf : ℕ → Option W) : Prop where
  /-- the committed copy is the epoch-start value -/
  readOnly : w.readOnly = m
  /-- a private write is the writable copy, and its author owns the word -/
  owner : ∀ {tx v}, buf tx = some v →
    w.control.wordHasBeenWritten = true ∧ w.control.accessSet = tx ∧ w.writable = v
  /-- the written flag stands for the owner's private write -/
  written : w.control.wordHasBeenWritten = true → ∃ v, buf w.control.accessSet = some v

namespace WordInv

variable {w : Word W} {m : W} {buf buf' : ℕ → Option W}

/-- At most one transaction has a private write on a word. -/
theorem unique (hw : WordInv w m buf) {tx tx' : ℕ} {v v' : W} (h : buf tx = some v)
    (h' : buf tx' = some v') : tx = tx' :=
  (hw.owner h).2.1.symm.trans (hw.owner h').2.1

/-- A word that is not written hides nothing. -/
theorem eq_none (hw : WordInv w m buf) (hn : w.control.wordHasBeenWritten = false)
    (tx : ℕ) : buf tx = none := by
  rcases h : buf tx with _ | v
  · rfl
  · rw [(hw.owner h).1] at hn
    cases hn

/-- The invariant reads the private writes pointwise. -/
theorem congr (hw : WordInv w m buf) (h : ∀ tx, buf' tx = buf tx) : WordInv w m buf' := by
  obtain rfl : buf' = buf := funext h
  exact hw

/-- A clean word: nothing written in this epoch. -/
theorem clean (hn : w.control.wordHasBeenWritten = false) :
    WordInv w w.readOnly fun _ => none :=
  ⟨rfl, fun h => absurd h (by simp), fun h => absurd h (by simp [hn])⟩

end WordInv

/-- A fresh segment is all zero and clean. -/
theorem wordInv_initSegment [Zero W] (align size j : ℕ) :
    WordInv ((initSegment align size : Segment W).word j) 0 fun _ => none :=
  WordInv.clean rfl

/-- **Reads.** A successful read returns the epoch-start value to a read-only
transaction, and to a read-write one its own private write if it has one. The
protocol of the word does not move: the reader at most becomes the owner of a
word that is not written. -/
theorem WordInv.readWord {seg : Segment W} {tx : ℕ} {ro : Bool} {j : ℕ} {m : W}
    {buf : ℕ → Option W} (hw : WordInv (seg.word j) m buf) :
    WordInv ((readWord seg tx ro j).2.word j) m buf ∧
      ∀ {v}, (DualStm.readWord seg tx ro j).1 = some v →
        v = if ro = true then m else (buf tx).getD m := by
  unfold DualStm.readWord
  by_cases hro : ro = true
  · rw [if_pos hro]
    refine ⟨hw, fun hv => ?_⟩
    rw [if_pos hro, ← hw.readOnly, ← readReadOnlyCopy_eq]
    exact (Option.some.inj hv).symm
  · simp only [if_neg hro]
    by_cases hwr : (seg.control j).wordHasBeenWritten = false
    · simp only [if_pos hwr]
      have hnone : buf tx = none := hw.eq_none hwr tx
      split
      · -- the first access: only the owner changes
        have hcopy : readReadOnlyCopy j
            (seg.setControl j { seg.control j with accessSet := tx }) = m := by
          rw [← hw.readOnly, readReadOnlyCopy_eq, word_setControl_self]
          rfl
        refine ⟨⟨?_, fun h => ?_, fun h => ?_⟩, fun hv => ?_⟩
        · rw [← readReadOnlyCopy_eq, hcopy]
        · rw [hw.eq_none hwr] at h
          cases h
        · rw [word_setControl_self] at h
          simp [hwr] at h
        · rw [hnone, Option.getD_none, ← hcopy]
          exact (Option.some.inj hv).symm
      · refine ⟨hw, fun hv => ?_⟩
        rw [hnone, Option.getD_none, ← hw.readOnly, ← readReadOnlyCopy_eq]
        exact (Option.some.inj hv).symm
    · simp only [if_neg hwr]
      split
      · -- the owner reads its own write back
        rename_i howner
        refine ⟨hw, fun hv => ?_⟩
        obtain ⟨u, hu⟩ := hw.written howner.1
        have hbuf : buf tx = some u := by
          rw [← howner.2]
          exact hu
        rw [hbuf, Option.getD_some, ← (hw.owner hu).2.2, ← readWritableCopy_eq]
        exact (Option.some.inj hv).symm
      · exact ⟨hw, fun hv => absurd hv (by simp)⟩

/-- **Writes.** A successful write leaves the writer as the only transaction with
a private write, and the committed copy alone. -/
theorem WordInv.writeWord {seg seg' : Segment W} {tx j : ℕ} {m v : W}
    {buf buf' : ℕ → Option W} (hw : WordInv (seg.word j) m buf)
    (hs : writeWord seg tx j v = some seg') (hself : buf' tx = some v)
    (hother : ∀ tx', tx' ≠ tx → buf' tx' = buf tx') :
    WordInv (seg'.word j) m buf' := by
  -- whoever had a private write before was the writer itself
  have hnone : ∀ tx', tx' ≠ tx → buf tx' = none := by
    intro tx' hne
    rcases h : buf tx' with _ | u
    · rfl
    · exfalso
      obtain ⟨hwr, hacc, -⟩ := hw.owner h
      unfold DualStm.writeWord at hs
      simp only [show (seg.control j).wordHasBeenWritten = true from hwr, if_true,
        show (seg.control j).accessSet = tx' from hacc, if_neg hne] at hs
      cases hs
  rw [(word_writeWord hs).2]
  refine ⟨?_, fun {tx' u} h => ?_, fun _ => ⟨v, ?_⟩⟩
  · rw [Word.readOnly_store, ← hw.readOnly]
    rfl
  · obtain rfl | hne := eq_or_ne tx' tx
    · obtain rfl : v = u := Option.some.inj (hself.symm.trans h)
      simp
    · rw [hother tx' hne, hnone tx' hne] at h
      cases h
  · simpa using hself

/-- **Releases.** The abort loop drops the private write of its transaction. -/
theorem WordInv.releaseWord {seg : Segment W} {tx j : ℕ} {m : W} {buf buf' : ℕ → Option W}
    (hw : WordInv (seg.word j) m buf) (hself : buf' tx = none)
    (hother : ∀ tx', tx' ≠ tx → buf' tx' = buf tx') :
    WordInv ((releaseWord seg tx j).word j) m buf' := by
  unfold DualStm.releaseWord
  by_cases hc : (seg.control j).accessSet = tx ∧ (seg.control j).wordHasBeenWritten = true
  · rw [if_pos hc, word_setControl_self]
    refine ⟨hw.readOnly, ?_, fun h => absurd h (by simp)⟩
    intro tx' u h
    by_cases hne : tx' = tx
    · rw [hne, hself] at h
      cases h
    · rw [hother tx' hne] at h
      exact absurd ((hw.owner h).2.1.symm.trans hc.1) hne
  · rw [if_neg hc]
    have hnone : buf tx = none := by
      rcases h : buf tx with _ | u
      · rfl
      · obtain ⟨hwr, hacc, -⟩ := hw.owner h
        exact absurd ⟨hacc, hwr⟩ hc
    apply hw.congr
    intro tx'
    by_cases hne : tx' = tx
    · rw [hne, hself, hnone]
    · exact hother tx' hne

/-- **The flip.** The commit turns the one private write there is into the
committed copy, and leaves the word clean. -/
theorem WordInv.commitWord {seg : Segment W} {j : ℕ} {m : W} {buf : ℕ → Option W}
    (hw : WordInv (seg.word j) m buf) :
    ∃ m', WordInv { seg.word j with control := commitWord (seg.control j) } m' (fun _ => none) ∧
      (∀ tx v, buf tx = some v → m' = v) ∧ ((∀ tx, buf tx = none) → m' = m) := by
  refine ⟨_, WordInv.clean rfl, ?_, ?_⟩
  · intro tx v h
    obtain ⟨hwr, -, hv⟩ := hw.owner h
    have hwr' : (seg.control j).wordHasBeenWritten = true := hwr
    rw [← hv]
    rcases hro : (seg.control j).wordIsRo with _ | _ <;>
      simp [Word.readOnly, DualStm.commitWord, Word.writable, Segment.word, hwr', hro]
  · intro hnone
    have hwr : (seg.control j).wordHasBeenWritten = false := by
      rcases hc : (seg.control j).wordHasBeenWritten with _ | _
      · rfl
      · obtain ⟨v, hv⟩ := hw.written hc
        rw [hnone] at hv
        cases hv
    rw [← hw.readOnly]
    rcases hro : (seg.control j).wordIsRo with _ | _ <;>
      simp [Word.readOnly, DualStm.commitWord, Segment.word, hwr, hro]

end DualStm
