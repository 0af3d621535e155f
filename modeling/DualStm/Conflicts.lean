import DualStm.Serializability

/-!
# Only real conflicts abort

The control entry of a word names a transaction only when that transaction has
itself accessed the word in the current epoch: the commit clears every entry of
every segment, an abort clears what it had written, and what an abort leaves
behind after a read still names somebody who has read. So whoever finds a word
taken has met somebody else there.

In an array of segments that a `tm_alloc` has moved away from under a loop there may be
anything: there a word can be found taken although nobody has accessed it.
-/

namespace DualStm

variable {τ W : Type}

/-- A transaction has read or written a word. -/
def Accessed (h : List (Event τ W)) (T : Txn) (ℓ : Loc) : Prop :=
  ∃ v, .read T ℓ v ∈ h ∨ .wrote T ℓ v ∈ h

/-- No word of the region has an owner, and none is written. -/
def Region.Clean (r : Region W) : Prop :=
  ∀ i j, i < r.nSegments → j < (r.segments i).nWords →
    ((r.segments i).control j).accessSet = NONE ∧
      ((r.segments i).control j).wordHasBeenWritten = false

/-- What a control entry says is borne out by the history. -/
structure Explained (h : List (Event τ W)) (ep : ℕ) (ℓ : Loc) (c : Control) : Prop where
  /-- the owner has accessed the word -/
  accessed : c.accessSet ≠ NONE → Accessed h ⟨ep, c.accessSet⟩ ℓ
  /-- a written word has an owner -/
  written : c.wordHasBeenWritten = true → c.accessSet ≠ NONE

/-- Every control entry in use is borne out. -/
def Owners (h : List (Event τ W)) (s : State τ W) : Prop :=
  ∀ ℓ, s.Valid ℓ → Explained h s.epoch ℓ (s.region.word ℓ).control

section

variable {h : List (Event τ W)} {e : Event τ W} {T : Txn} {ℓ : Loc} {c : Control} {ep : ℕ}

theorem Accessed.cons (ha : Accessed h T ℓ) : Accessed (e :: h) T ℓ := by
  obtain ⟨v, hv | hv⟩ := ha
  · exact ⟨v, .inl (List.mem_cons_of_mem _ hv)⟩
  · exact ⟨v, .inr (List.mem_cons_of_mem _ hv)⟩

theorem Explained.cons (he : Explained h ep ℓ c) : Explained (e :: h) ep ℓ c :=
  ⟨fun hne => (he.accessed hne).cons, he.written⟩

/-- An entry without owner needs no explanation. -/
theorem explained_clean (ha : c.accessSet = NONE) (hw : c.wordHasBeenWritten = false) :
    Explained h ep ℓ c :=
  ⟨fun hne => absurd ha hne, fun htrue => by rw [hw] at htrue; cases htrue⟩

end

/-! ## Refused accesses

`read_word` and `write_word` refuse a word by its control field alone, so a refusal says which
other transaction has been there. -/

/-- A read is refused on a word that somebody else has written. -/
theorem readWord_eq_none {seg : Segment W} {tx j : ℕ} {ro : Bool}
    (hr : (readWord seg tx ro j).1 = none) :
    ro = false ∧ (seg.control j).wordHasBeenWritten = true ∧ (seg.control j).accessSet ≠ tx := by
  simp only [readWord] at hr
  split at hr
  · cases hr
  · rename_i hro
    split at hr
    · cases hr
    · rename_i hw
      split at hr
      · cases hr
      · rename_i hown
        have hw : (seg.control j).wordHasBeenWritten = true := by
          rw [← Bool.not_eq_false]
          exact hw
        exact ⟨Bool.eq_false_iff.mpr hro, hw, fun heq => hown ⟨hw, heq⟩⟩

/-- A write is refused on a word that somebody else has. -/
theorem writeWord_eq_none {seg : Segment W} {tx j : ℕ} {v : W}
    (hw : writeWord seg tx j v = none) :
    (seg.control j).accessSet ≠ tx ∧
      ((seg.control j).wordHasBeenWritten = true ∨ (seg.control j).accessSet ≠ NONE) := by
  simp only [writeWord] at hw
  split at hw
  · rename_i hwr
    split at hw
    · cases hw
    · rename_i hown
      exact ⟨hown, .inl hwr⟩
  · split at hw
    · rename_i hown
      exact ⟨hown.2, .inr hown.1⟩
    · cases hw

/-! ## The owners along a run

The owner of a word is a transaction of the epoch that has accessed it, and the mark of several
readers stands for two of them. Each kind of step keeps this; a commit and an abort clear it. -/

variable {h : List (Event τ W)} {s s' : State τ W} {e : Event τ W}

namespace Owners

/-- A step within an epoch keeps the owners, if a word it touches has an owner that is
explained. -/
theorem within (ho : Owners h s) (hep : s'.epoch = s.epoch)
    (hold : ∀ {ℓ}, s'.Valid ℓ → s.Valid ℓ ∧ (s'.region.word ℓ).control = (s.region.word ℓ).control ∨
      Explained (e :: h) s.epoch ℓ (s'.region.word ℓ).control) : Owners (e :: h) s' := by
  intro ℓ hv
  rw [hep]
  rcases hold hv with ⟨hv, heq⟩ | hex
  · rw [heq]
    exact (ho _ hv).cons
  · exact hex

/-- A step on one word of a segment keeps the owners, if the new owner of that word is
explained. -/
theorem setSegment (ho : Owners h s) {i j : ℕ} {seg : Segment W} (hep : s'.epoch = s.epoch)
    (hr : s'.region = s.region.setSegment i seg) (hn : seg.nWords = (s.region.segments i).nWords)
    (hne : ∀ k, k ≠ j → seg.word k = (s.region.segments i).word k)
    (hself : s.Valid (i, j) → Explained (e :: h) s.epoch (i, j) (seg.word j).control) :
    Owners (e :: h) s' := by
  refine ho.within hep fun {ℓ} hv => ?_
  obtain ⟨k, l⟩ := ℓ
  obtain ⟨hk, hl⟩ := hv
  rw [hr] at hk hl
  obtain rfl | hki := eq_or_ne k i
  · rw [Region.setSegment_self, hn] at hl
    have hword : s'.region.word (k, l) = seg.word l := by
      rw [Region.word, hr, Region.setSegment_self]
    rw [hword]
    obtain rfl | hlj := eq_or_ne l j
    · exact .inr (hself ⟨hk, hl⟩)
    · exact .inl ⟨⟨hk, hl⟩, by rw [hne l hlj]; rfl⟩
  · rw [Region.setSegment_ne _ _ hki] at hl
    refine .inl ⟨⟨hk, hl⟩, ?_⟩
    rw [Region.word, hr, Region.setSegment_ne _ _ hki]
    rfl

/-- A step that leaves every word alone. -/
theorem same (ho : Owners h s) (hep : s'.epoch = s.epoch)
    (hn : s'.region.nSegments = s.region.nSegments)
    (hseg : ∀ i, (s'.region.segments i).nWords = (s.region.segments i).nWords ∧
      ∀ j, (s'.region.segments i).word j = (s.region.segments i).word j) :
    Owners (e :: h) s' := by
  refine ho.within hep fun {ℓ} hv => .inl ⟨⟨hn ▸ hv.1, (hseg ℓ.1).1 ▸ hv.2⟩, ?_⟩
  rw [Region.word, (hseg ℓ.1).2]
  rfl

end Owners

/-- The commit of an epoch clears every entry. -/
theorem clean_of_commit {r r' : Region W} (hsh : Shape ∅ r)
    (hc : CommitSpec r.nSegments r r') : r'.Clean := by
  intro i j hi hj
  rw [hc.nSegments] at hi
  have hd : (r.segments i).deregistered = NONE := by
    by_contra hd
    exact hsh.deregistered hi hd
  have hseg : r'.segments i = commitSegment (r.segments i) := by
    rw [hc.segments i, if_pos ⟨hi, hd⟩]
  rw [hseg] at hj ⊢
  have hword := word_commitSegment (r.segments i) j
  rw [if_pos (show j < (r.segments i).nWords from hj)] at hword
  have hctl := congrArg Word.control hword
  rw [show (commitSegment (r.segments i)).control j = _ from hctl]
  exact ⟨rfl, rfl⟩

variable [DecidableEq τ] [Zero W]

/-- Every step keeps the entries explained, ids being proper. -/
theorem owners_step (ho : Owners h s) (hsh : Shape ∅ s.region)
    (hid : ∀ {t id}, s.client t = .inside id → id ≠ NONE) (hs : Step s e s')
    (he : e.avoids ∅) : Owners (e :: h) s' := by
  cases hs with
  | @read t id seg start idx stop off target v hc hr hidx hv =>
    refine ho.setSegment (j := idx) rfl rfl (sameShape_readWord ..).nWords
      (fun k hk => word_readWord_ne _ _ _ hk) fun hval => ?_
    rcases (word_readWord (s.region.segments seg) id (s.region.isRoFlags id) idx).1 with
      heq | ⟨hw, -, heq⟩
    · rw [heq]
      exact (ho _ hval).cons
    · rw [heq]
      exact ⟨fun _ => ⟨v, .inl List.mem_cons_self⟩, fun htrue => absurd (hw.symm.trans htrue)
        (by simp)⟩
  | @readRefused t id seg start idx stop off target hc hr hidx hv =>
    refine ho.setSegment (j := idx) rfl rfl (sameShape_readWord ..).nWords
      (fun k hk => word_readWord_ne _ _ _ hk) fun hval => ?_
    rcases (word_readWord (s.region.segments seg) id (s.region.isRoFlags id) idx).1 with
      heq | ⟨hw, -, -⟩
    · rw [heq]
      exact (ho _ hval).cons
    · exact absurd (hw.symm.trans (readWord_eq_none hv).2.1) (by simp)
  | @wrote t id seg start idx stop source off segment' hc hr hidx hwr =>
    refine ho.setSegment (j := idx) rfl rfl (sameShape_writeWord hwr).nWords
      (fun k hk => word_writeWord_ne hwr hk) fun hval => ?_
    rw [(word_writeWord hwr).2, Word.store_control]
    exact ⟨fun _ => ⟨source off, .inr List.mem_cons_self⟩, fun _ => hid hc⟩
  | @released t id i j hc hr hlt hj =>
    refine ho.setSegment (j := j) rfl rfl (sameShape_releaseWord ..).nWords
      (fun k hk => word_releaseWord_ne _ _ hk) fun hval => ?_
    rw [word_releaseWord]
    split
    · exact explained_clean rfl rfl
    · exact (ho _ hval).cons
  | @alloced t id size hc hr hro =>
    rw [hsh.tmAlloc_eq he]
    refine ho.within rfl fun {ℓ} hv => ?_
    obtain ⟨k, l⟩ := ℓ
    obtain ⟨hk, hl⟩ := hv
    simp only [State.setRegion_region, addSegment] at hk hl
    obtain rfl | hki := eq_or_ne k s.region.nSegments
    · right
      rw [State.setRegion_region, Region.word, addSegment, Region.setSegment_self]
      exact explained_clean rfl rfl
    · rw [Region.setSegment_ne _ _ hki] at hl
      left
      refine ⟨⟨?_, hl⟩, ?_⟩
      · have hk : k < s.region.nSegments + 1 := hk
        show k < s.region.nSegments
        omega
      · rw [State.setRegion_region, Region.word, addSegment, Region.setSegment_ne _ _ hki]
        rfl
  | freed => exact absurd he id
  | freeRefused => exact absurd he id
  | @undone t id i j hc hr hlt hj =>
    refine ho.same rfl ?_ fun k => ?_
    · simp only [State.setCall_region, State.setRegion_region, undoFree]
      split <;> rfl
    · simp only [State.setCall_region, State.setRegion_region, undoFree]
      split
      · obtain rfl | hk := eq_or_ne k i
        · rw [Region.setSegment_self]
          exact ⟨rfl, fun _ => rfl⟩
        · rw [Region.setSegment_ne _ _ hk]
          exact ⟨rfl, fun _ => rfl⟩
      · exact ⟨rfl, fun _ => rfl⟩
  | flagged hc hr => exact ho.same rfl rfl fun i => ⟨rfl, fun _ => rfl⟩
  | @left t id fin hc hr hn =>
    refine ho.same ?_ rfl fun i => ⟨rfl, fun _ => rfl⟩
    simp only [State.epoch, State.setGate_gate, Gate.afterLeave_early hn]
  | @closed t id fin r hc hr hn hcommit =>
    have hclean := clean_of_commit hsh (commitTranscationsInEpoch_spec hcommit)
    intro ℓ hv
    obtain ⟨ha, hw⟩ := hclean ℓ.1 ℓ.2 hv.1 hv.2
    exact explained_clean ha hw
  | _ => exact ho.same rfl rfl fun i => ⟨rfl, fun _ => rfl⟩

/-- A transaction that is refused has met another one. -/
theorem Owners.refused (ho : Owners h s) (hi : InRange s) {T : Txn} {ℓ : Loc}
    (hs : Step s (.refused T ℓ) s') :
    ∃ T', T' ≠ T ∧ T'.epoch = T.epoch ∧ Accessed h T' ℓ := by
  generalize he : Event.refused T ℓ = e at hs
  have hother : ∀ {id seg idx : ℕ}, s.Valid (seg, idx) →
      ((s.region.segments seg).control idx).accessSet ≠ id →
      ((s.region.segments seg).control idx).accessSet ≠ NONE →
      ∃ T', T' ≠ s.txn id ∧ T'.epoch = (s.txn id).epoch ∧ Accessed h T' (seg, idx) := by
    intro id seg idx hval hne hsome
    refine ⟨s.txn ((s.region.segments seg).control idx).accessSet, ?_, rfl,
      (ho _ hval).accessed hsome⟩
    intro heq
    injection heq with _ heq
    exact hne heq
  cases hs with
  | @readRefused t id seg start idx stop off target hc hr hidx hv =>
    injection he with hT hℓ
    subst hT hℓ
    have hwin : (s.call t).window = some (seg, stop) := by rw [hr]; rfl
    have hval := (hi hwin).valid hidx
    obtain ⟨-, hw, hne⟩ := readWord_eq_none hv
    exact hother hval hne ((ho _ hval).written hw)
  | @writeRefused t id seg start idx stop source off hc hr hidx hw =>
    injection he with hT hℓ
    subst hT hℓ
    have hwin : (s.call t).window = some (seg, stop) := by rw [hr]; rfl
    have hval := (hi hwin).valid hidx
    obtain ⟨hne, hw | hsome⟩ := writeWord_eq_none hw
    · exact hother hval hne ((ho _ hval).written hw)
    · exact hother hval hne hsome
  | @left t id fin => cases fin <;> cases he
  | @closed t id fin => cases fin <;> cases he
  | _ => cases he

/-! ## Aborts

An abort follows a refusal, and the refusal stays on the history. So does the access of the
other transaction that has led to it. -/

variable [Fintype τ]

/-- A transaction begins to abort when an access or a free is refused. -/
theorem Step.aborting (hs : Step s e s') (hb : Books h s) {T : Txn} {i j : ℕ}
    (ha : Aborting s' T i j) :
    (∃ i j, Aborting s T i j) ∨ (∃ ℓ, e = .refused T ℓ) ∨ e.isFree = true := by
  -- a thread that moves on to a call that is no abort, or is one for a reason
  have hset : ∀ {t : τ} {r : Region W} {c : Call W} {id : ℕ},
      Aborting ((s.setRegion r).setCall t c) T i j → s.client t = .inside id →
      (c.cursor = some (i, j) → (∃ i j, (s.call t).cursor = some (i, j)) ∨
        (∃ ℓ, e = .refused (s.txn id) ℓ) ∨ e.isFree = true) →
      (∃ i j, Aborting s T i j) ∨ (∃ ℓ, e = .refused T ℓ) ∨ e.isFree = true := by
    intro t r c id ha hc hwhy
    rcases ha.of_setCall with ⟨u, -, hu, hep, hcu⟩ | ⟨hu, hep, hcu⟩
    · exact .inl ⟨i, j, u, hu, hep, hcu⟩
    · rcases hwhy hcu with ⟨i', j', hcu'⟩ | ⟨ℓ, he⟩ | hfree
      · exact .inl ⟨i', j', t, hu, hep, hcu'⟩
      · exact .inr (.inl ⟨ℓ, State.txn_eq hc hu hep ▸ he⟩)
      · exact .inr (.inr hfree)
  cases hs with
  | @called t isRo hc hr =>
    refine .inl ⟨i, j, ha.others (t := t) rfl (.inl ?_) fun u hut => ⟨rfl, ?_⟩⟩
    · rw [show State.client _ t = .outside from hc]
      rintro ⟨⟩
    · simp only [State.call, Function.update_of_ne hut]
  | @opened t hc hr hn =>
    exact .inl ⟨i, j, ha.of_setGate (t := t) (.inr (by rw [hr]; rfl)) rfl
      fun u hut => Function.update_of_ne hut _ _⟩
  | @woke t since hc =>
    exact .inl ⟨i, j, ha.of_setGate (t := t) (.inr (by rw [hb.threads.woken hc]; rfl)) rfl
      fun u hut => Function.update_of_ne hut _ _⟩
  | @waiting t hc hr hn =>
    exact .inl ⟨i, j, ha.of_setGate (t := t) (.inl (by simp [Gate.wait])) rfl
      fun u hut => Function.update_of_ne hut _ _⟩
  | flagged hc hr => exact hset ha hc fun hcu => by cases hcu
  | reading hc hr hrange => exact hset (r := s.region) ha hc fun hcu => by cases hcu
  | writing hc hr hrange hro => exact hset (r := s.region) ha hc fun hcu => by cases hcu
  | read hc hr hidx hv => exact hset ha hc fun hcu => by cases hcu
  | readRefused hc hr hidx hv => exact hset ha hc fun _ => .inr (.inl ⟨_, rfl⟩)
  | readDone hc hr hidx => exact hset (r := s.region) ha hc fun hcu => by cases hcu
  | wrote hc hr hidx hw => exact hset ha hc fun hcu => by cases hcu
  | writeRefused hc hr hidx hw =>
    exact hset (r := s.region) ha hc fun _ => .inr (.inl ⟨_, rfl⟩)
  | writeDone hc hr hidx => exact hset (r := s.region) ha hc fun hcu => by cases hcu
  | alloced hc hr hro => exact .inl ⟨i, j, ha⟩
  | freed hc hr hro hseg hf => exact .inl ⟨i, j, ha⟩
  | freeRefused hc hr hro hseg hf => exact .inr (.inr rfl)
  | released hc hr hi hj => exact hset ha hc fun _ => .inl ⟨_, _, by rw [hr]; rfl⟩
  | undone hc hr hi hj => exact hset ha hc fun _ => .inl ⟨_, _, by rw [hr]; rfl⟩
  | left hc hr hn => exact .inl ⟨i, j, ha.of_leave hb.gate hc rfl rfl⟩
  | closed hc hr hn hcommit => exact .inl ⟨i, j, ha.of_leave hb.gate hc rfl rfl⟩

omit [Fintype τ] in
/-- The abort ends where it has come to. -/
theorem Step.aborted {T : Txn} {b : Bool} (hs : Step s (.aborted T b) s') :
    ∃ i j, Aborting s T i j := by
  generalize he : Event.aborted T b = e at hs
  have hleave : ∀ {t : τ} {id : ℕ} {fin last : Bool}, s.client t = .inside id →
      (if fin = true then s.call t = .rest else
        ∃ i j, s.call t = .aborting i j ∧ ¬ i < s.region.nSegments) →
      (.aborted T b : Event τ W) =
        (if fin = true then .ended (s.txn id) last else .aborted (s.txn id) last) →
      ∃ i j, Aborting s T i j := by
    intro t id fin last hc hr he
    cases fin with
    | true => cases he
    | false =>
      obtain ⟨i, j, hcall, -⟩ := hr
      injection he with hT
      exact ⟨i, j, t, hT ▸ hc, by rw [hT], by rw [hcall]; rfl⟩
  cases hs with
  | left hc hr hn => exact hleave hc hr he
  | closed hc hr hn hcommit => exact hleave hc hr he
  | _ => cases he

/-- Every transaction that aborts, or has aborted, was refused a word before. -/
structure Refusals (h : List (Event τ W)) (s : State τ W) : Prop where
  /-- a transaction in its abort was refused a word -/
  aborting : ∀ {T i j}, Aborting s T i j → ∃ ℓ, .refused T ℓ ∈ h
  /-- a transaction that has left through its abort was refused a word -/
  aborted : ∀ {T}, Aborted h T → ∃ ℓ, .refused T ℓ ∈ h

theorem Refusals.step (hr : Refusals h s) (hb : Books h s) (hs : Step s e s')
    (he : e.isFree = false) : Refusals (e :: h) s' := by
  constructor
  · intro T i j ha
    rcases hs.aborting hb ha with ⟨i', j', ha'⟩ | ⟨ℓ, rfl⟩ | hfree
    · obtain ⟨ℓ, hℓ⟩ := hr.aborting ha'
      exact ⟨ℓ, List.mem_cons_of_mem _ hℓ⟩
    · exact ⟨ℓ, List.mem_cons_self⟩
    · rw [he] at hfree
      cases hfree
  · intro T ha
    obtain ⟨b, hmem⟩ := ha
    have hrefused : ∃ ℓ, .refused T ℓ ∈ h := by
      rcases List.mem_cons.mp hmem with rfl | hmem
      · obtain ⟨i, j, ha⟩ := hs.aborted
        exact hr.aborting ha
      · exact hr.aborted ⟨b, hmem⟩
    obtain ⟨ℓ, hℓ⟩ := hrefused
    exact ⟨ℓ, List.mem_cons_of_mem _ hℓ⟩

/-! ## Runs

What the invariants say along the runs of the library: every refusal has met another
transaction of the same epoch. -/

section

variable {s₀ : State τ W} {T : Txn} {ℓ : Loc}

theorem owners_run (hcard : Fintype.card τ ≤ MAX_NUM_SEGMENTS) (hrest : s₀.AtRest)
    (hset : s₀.region.Settled ∅) (hclean : s₀.region.Clean)
    (hr : Run State.step freesNothing s₀ h s) : Owners h s := by
  induction hr with
  | start =>
    intro ℓ hv
    obtain ⟨ha, hw⟩ := hclean ℓ.1 ℓ.2 hv.1 hv.2
    exact explained_clean ha hw
  | next hr hs hq ih =>
    have hi := Isolated.run (fun _ _ _ => avoids_of_freesNothing) hrest hset hr
    exact owners_step ih hi.shape (hi.books.id_ne_none (hcard.trans (by decide))) (step_cases hs)
      (avoids_of_freesNothing hq)

omit [Fintype τ] in
/-- The leave that ends an epoch leaves a clean region. -/
theorem Step.clean (hs : Step s e s') (hsh : Shape ∅ s.region) (hc : e.closes) :
    s'.region.Clean := by
  obtain ⟨T, hl⟩ := hc
  cases hs with
  | closed _ _ _ hcommit => exact clean_of_commit hsh (commitTranscationsInEpoch_spec hcommit)
  | @left t id fin => cases fin <;> cases hl
  | _ => cases hl

/-- Who is refused a word has not declared itself read-only. -/
theorem Step.refused_flag (hs : Step s (.refused T ℓ) s') (hi : Isolated s₀.committed ∅ h s) :
    T ∈ begun h ∧ flagOf T h = some false := by
  generalize he : Event.refused T ℓ = e at hs
  have hbegun : ∀ {t : τ} {id : ℕ}, s.client t = .inside id → s.txn id ∈ begun h := fun hc =>
    mem_begun (hi.books.ids.holds.mp hc).1
  cases hs with
  | @readRefused t id seg start idx stop off target hc hr hidx hv =>
    injection he with hT
    subst hT
    refine ⟨hbegun hc, ?_⟩
    rw [hi.books.flags hc, ← hi.books.threads.flag hc (by rw [hr]; simp), (readWord_eq_none hv).1]
  | @writeRefused t id seg start idx stop source off hc hr hidx hw =>
    injection he with hT
    subst hT
    refine ⟨hbegun hc, ?_⟩
    rw [hi.books.flags hc, hi.writes.writer (by rw [hr]; rfl)]
  | @left t id fin => cases fin <;> cases he
  | @closed t id fin => cases fin <;> cases he
  | _ => cases he

/-- Only transactions that have begun access words. -/
theorem Step.access_begun (hs : Step s e s') (hb : Books h s)
    (he : (∃ v, e = .read T ℓ v) ∨ ∃ v, e = .wrote T ℓ v) : T ∈ begun h := by
  have hbegun : ∀ {t : τ} {id : ℕ}, s.client t = .inside id → s.txn id = T → T ∈ begun h := by
    rintro t id hc rfl
    exact mem_begun (hb.ids.holds.mp hc).1
  rcases he with ⟨v, he⟩ | ⟨v, he⟩
  · cases hs with
    | read hc =>
      injection he with hT
      exact hbegun hc hT
    | @left t id fin => cases fin <;> cases he
    | @closed t id fin => cases fin <;> cases he
    | _ => cases he
  · cases hs with
    | wrote hc =>
      injection he with hT
      exact hbegun hc hT
    | @left t id fin => cases fin <;> cases he
    | @closed t id fin => cases fin <;> cases he
    | _ => cases he

theorem Accessed.begun (ha : Accessed h T ℓ) (hrest : s₀.AtRest)
    (hr : Run State.step freesNothing s₀ h s) : T ∈ begun h := by
  induction hr with
  | start =>
    obtain ⟨v, hv | hv⟩ := ha
    · cases hv
    · cases hv
  | @next h s s' a e hr hs _ ih =>
    apply begun_subset_cons
    have hb := Books.run hrest hr
    obtain ⟨v, hv | hv⟩ := ha
    · rcases List.mem_cons.mp hv with rfl | hv
      · exact (step_cases hs).access_begun hb (.inl ⟨v, rfl⟩)
      · exact ih ⟨v, .inl hv⟩
    · rcases List.mem_cons.mp hv with rfl | hv
      · exact (step_cases hs).access_begun hb (.inr ⟨v, rfl⟩)
      · exact ih ⟨v, .inr hv⟩

theorem refusals_run (hrest : s₀.AtRest) (hr : Run State.step freesNothing s₀ h s) :
    Refusals h s := by
  induction hr with
  | start =>
    constructor
    · intro T i j ha
      obtain ⟨t, hc, -, -⟩ := ha
      rw [show s₀.client t = .outside from hrest.1.2 t] at hc
      cases hc
    · intro T ha
      obtain ⟨b, hb⟩ := ha
      cases hb
  | next hr hs hq ih => exact ih.step (.run hrest hr) (step_cases hs) hq

end

/-- **Only real conflicts abort.** At the start of every epoch the region is clean; whoever
is refused a word has met another transaction of its epoch there; and a transaction aborts
only after it was refused. So neither a read-only transaction nor one that is alone in its
epoch is ever refused anything, and neither aborts. -/
structure OnlyConflictsAbort (h : List (Event τ W)) (s : State τ W) : Prop where
  /-- every word is free when an epoch starts -/
  clean : EpochStart h → s.region.Clean
  /-- who is refused a word has met somebody there -/
  refused : ∀ g g' T ℓ, h = g' ++ .refused T ℓ :: g →
    ∃ T', T' ≠ T ∧ T'.epoch = T.epoch ∧ Accessed g T' ℓ
  /-- who aborts was refused a word -/
  aborted : ∀ T, Aborted h T → ∃ ℓ, .refused T ℓ ∈ h
  /-- a read-only transaction is not -/
  readOnly : ∀ T, flagOf T h = some true → ¬ Aborted h T ∧ ∀ ℓ, .refused T ℓ ∉ h
  /-- a transaction alone in its epoch is not refused a word and does not abort -/
  alone : ∀ T, (∀ T' ∈ begun h, T'.epoch = T.epoch → T' = T) →
    ¬ Aborted h T ∧ ∀ ℓ, .refused T ℓ ∉ h

/-- In a run without `tm_free`, from a clean region, only conflicts abort. -/
theorem onlyConflictsAbort {s₀ s : State τ W} {h : List (Event τ W)}
    (hcard : Fintype.card τ ≤ MAX_NUM_SEGMENTS) (hrest : s₀.AtRest)
    (hset : s₀.region.Settled ∅) (hclean : s₀.region.Clean)
    (hr : Run State.step freesNothing s₀ h s) : OnlyConflictsAbort h s := by
  -- a refusal, at its place in the run
  have hplace : ∀ {g g' T ℓ}, h = g' ++ .refused T ℓ :: g → ∃ s₁ s₂,
      Run State.step freesNothing s₀ g s₁ ∧ Step s₁ (.refused T ℓ) s₂ := by
    rintro g g' T ℓ rfl
    obtain ⟨s₂, hr₂, -⟩ := hr.split
    obtain ⟨s₁, a, hr₁, hs, -⟩ := hr₂.last
    exact ⟨s₁, s₂, hr₁, step_cases hs⟩
  have hmet : ∀ g g' T ℓ, h = g' ++ .refused T ℓ :: g →
      ∃ T', T' ≠ T ∧ T'.epoch = T.epoch ∧ Accessed g T' ℓ := by
    intro g g' T ℓ hg
    obtain ⟨s₁, s₂, hr₁, hs⟩ := hplace hg
    exact (owners_run hcard hrest hset hclean hr₁).refused
      (Isolated.run (fun _ _ _ => avoids_of_freesNothing) hrest hset hr₁).inRange hs
  have habort : ∀ T, Aborted h T → ∃ ℓ, .refused T ℓ ∈ h := fun T =>
    (refusals_run hrest hr).aborted
  refine ⟨?_, hmet, habort, ?_, ?_⟩
  · intro hst
    cases hr with
    | start => exact hclean
    | next hr hs hq =>
      rcases hst with hnil | ⟨e, g, hcons, hc⟩
      · cases hnil
      · obtain ⟨rfl, rfl⟩ := List.cons.inj hcons
        have hi := Isolated.run (fun _ _ _ => avoids_of_freesNothing) hrest hset hr
        exact (step_cases hs).clean hi.shape hc
  · intro T hro
    have hnone : ∀ ℓ, .refused T ℓ ∉ h := by
      intro ℓ hmem
      obtain ⟨g', g, hg⟩ := List.append_of_mem hmem
      obtain ⟨s₁, s₂, hr₁, hs⟩ := hplace hg
      have hi := Isolated.run (fun _ _ _ => avoids_of_freesNothing) hrest hset hr₁
      obtain ⟨hT, hflag⟩ := hs.refused_flag hi
      have hsplit : h = (g' ++ [.refused T ℓ]) ++ g := by simpa using hg
      have hn := (Books.run hrest hr).ids.nodup
      rw [hsplit] at hn hro
      rw [flagOf_append hT hn, hflag] at hro
      cases hro
    refine ⟨?_, hnone⟩
    intro ha
    obtain ⟨ℓ, hℓ⟩ := habort T ha
    exact hnone ℓ hℓ
  · intro T halone
    have hnone : ∀ ℓ, .refused T ℓ ∉ h := by
      intro ℓ hmem
      obtain ⟨g', g, hg⟩ := List.append_of_mem hmem
      obtain ⟨T', hne, hep, ha⟩ := hmet g g' T ℓ hg
      obtain ⟨s₁, s₂, hr₁, hs⟩ := hplace hg
      obtain ⟨t, ht⟩ := exists_began (ha.begun hrest hr₁)
      refine hne (halone T' (mem_begun (t := t) ?_) hep)
      rw [hg]
      exact List.mem_append_right _ (List.mem_cons_of_mem _ ht)
    refine ⟨?_, hnone⟩
    intro ha
    obtain ⟨ℓ, hℓ⟩ := habort T ha
    exact hnone ℓ hℓ

/-- **Only real conflicts abort**, in every run without `tm_free` of at most
`MAX_NUM_SEGMENTS` threads in which no `tm_alloc` moves the array of segments under a loop. -/
theorem only_conflicts_abort {r₀ r : Raw τ W} {h : List (Event τ W)}
    (hcard : Fintype.card τ ≤ MAX_NUM_SEGMENTS) (hrest : r₀.state.AtRest)
    (hset : r₀.state.region.Settled ∅) (hclean : r₀.state.region.Clean)
    (hr : Run Raw.step (Raw.under freesNothing) r₀ h r) : OnlyConflictsAbort h r.state :=
  onlyConflictsAbort hcard hrest hset hclean (hr.toState_of_freesNothing hcard hrest hset)

/-- One transaction reads a word, and another one is refused it. -/
def refusing : List (Event (Fin 3) ℕ) :=
  [.refused ⟨1, 1⟩ (0, 0), .silent, .readDone ⟨1, 0⟩ 0 0 [(0, 0)], .read ⟨1, 0⟩ (0, 0) 0,
    .silent, .silent, .silent, .began 2 ⟨1, 1⟩, .began 1 ⟨1, 0⟩] ++ gathering

/-- The transaction that is refused the word meets the other one there. -/
theorem only_conflicts_abort_met :
    (∃ r : Raw (Fin 3) ℕ, Run Raw.step (Raw.under freesNothing) threeRaw refusing r) ∧
      ∃ T', T' ≠ ⟨1, 1⟩ ∧ T'.epoch = 1 ∧ Accessed refusing.tail T' (0, 0) := by
  obtain ⟨h, r, hr, rfl⟩ : ∃ h r, Run Raw.step (Raw.under freesNothing) threeRaw h r ∧
      h = refusing :=
    Run.exists_of_execUnder
      (calmly [.tmBegin 0 false, .enter 0, .tmBegin 1 false, .enter 1, .tmBegin 2 false, .enter 2,
        .setFlag 0, .tmEnd 0, .wake 1, .wake 2, .setFlag 1, .setFlag 2,
        .tmRead 1 getVirtStartAddr 8, .word 1, .word 1,
        .tmWrite 2 (fun _ => 1) 8 getVirtStartAddr, .word 2])
      (by decide +kernel)
  have hclean : threeThreads.region.Clean := by
    intro i j hi _
    obtain rfl : i = 0 := Nat.lt_one_iff.mp hi
    exact ⟨rfl, rfl⟩
  exact ⟨⟨r, hr⟩, (only_conflicts_abort (by decide) ⟨⟨rfl, fun _ => rfl⟩, fun _ => rfl⟩
    (tmCreate_settled ..) hclean hr).refused refusing.tail [] ⟨1, 1⟩ (0, 0) rfl⟩

/-- **Counterexample.** The array of segments is moved between the call of a `tm_read` and its
turn. It finds the word taken, which nobody has accessed, and aborts. -/
theorem only_conflicts_abort_dangling :
    ¬ ∀ (h : List (Event (Fin 3) ℕ)) (r : Raw (Fin 3) ℕ),
      Run Raw.step (Raw.underMoves freesNothing) threeRaw h r →
      OnlyConflictsAbort h r.state := by
  intro hall
  obtain ⟨h, r, hr, hnone, hrefused⟩ : ∃ h r,
      Run Raw.step (Raw.underMoves freesNothing) threeRaw h r ∧
      (∀ e ∈ h, ∀ ℓ ∈ e.access?, e.txn? = some ⟨1, 0⟩) ∧
      h.head? = some (.refused ⟨1, 0⟩ (0, 0)) :=
    Run.exists_of_execUnder
      (fillArray false [.tmRead 1 getVirtStartAddr 8] ++
        [(moved { initSegment 8 16 with control := fun _ => ⟨false, 5, true⟩ }, .tmAlloc 2 8),
          (moved { initSegment 8 16 with control := fun _ => ⟨false, 5, true⟩ }, .word 1)])
      (by decide +kernel)
  obtain ⟨g, rfl⟩ := List.head?_eq_some_iff.mp hrefused
  obtain ⟨T', hne, -, v, hv | hv⟩ := (hall _ r hr).refused g [] _ _ rfl
  · exact hne (Option.some.inj (hnone _ (List.mem_cons_of_mem _ hv) _ rfl))
  · exact hne (Option.some.inj (hnone _ (List.mem_cons_of_mem _ hv) _ rfl))

end DualStm
