import DualStm.Threads
import DualStm.Tracking
import Mathlib.Data.UInt

/-!
# Ranges of words

`tm_write` and `tm_read` step through a range of words and through a private
buffer at the same time. The word index goes up by one in both; in the buffer
`tm_read` goes on by `align` bytes, `tm_write` by one. Here a word is a word of
`align` bytes, and the buffer of a `tm_write` is told by its bytes.
-/

namespace DualStm

variable {τ W : Type}

/-- The words of a buffer, by the byte offset they start at. -/
def wordsOf {align : ℕ} (buf : ℕ → UInt8) (off : ℕ) : Fin align → UInt8 := fun j => buf (off + j)

/-- Every segment in use has the alignment of the region. -/
def Region.Aligned (align : ℕ) (r : Region W) : Prop :=
  r.align = align ∧ ∀ i < r.nSegments, (r.segments i).align = align

theorem tmCreate_aligned [Zero W] (size align : ℕ) (segments : ℕ → Segment W)
    (isRoFlags : ℕ → Bool) : (tmCreate size align segments isRoFlags).Aligned align := by
  refine ⟨rfl, ?_⟩
  intro i hi
  obtain rfl : i = 0 := Nat.lt_one_iff.mp hi
  simp [tmCreate, initSegment]

/-- The thread is inside a library function, in a run that keeps the segment. -/
def busy [DecidableEq τ] (t : τ) (seg : ℕ) : Discipline (State τ W) (Event τ W) :=
  fun _ s e => s.call t ≠ .rest ∧ e.keeps seg

variable [DecidableEq τ]

/-- A call of the thread, from the state it is made in to the one it returns in. -/
def State.Returns [Zero W] (seg : ℕ) (t : τ) (a : Action τ W) (s : State τ W)
    (g : List (Event τ W)) (s' : State τ W) : Prop :=
  ∃ s₁, s.step a = some (s₁, .silent) ∧ Run State.step (busy t seg) s₁ g s' ∧ s'.call t = .rest

section

variable [Zero W] {s s' : State τ W} {e : Event τ W} {h g : List (Event τ W)} {seg : ℕ}

theorem Step.aligned (hs : Step s e s') {align : ℕ} (ha : s.region.Aligned align) :
    s'.region.Aligned align := by
  have hset : ∀ {i : ℕ} {segment : Segment W},
      segment.align = (s.region.segments i).align →
      (s.region.setSegment i segment).Aligned align := by
    intro i segment hsame
    refine ⟨ha.1, ?_⟩
    intro k hk
    obtain rfl | hki := eq_or_ne k i
    · rw [Region.setSegment_self, hsame]
      exact ha.2 k hk
    · rw [Region.setSegment_ne _ _ hki]
      exact ha.2 k hk
  cases hs with
  | read => exact hset (sameShape_readWord ..).align
  | readRefused => exact hset (sameShape_readWord ..).align
  | wrote hc hr hidx hw => exact hset (sameShape_writeWord hw).align
  | released => exact hset (sameShape_releaseWord ..).align
  | undone =>
    rw [State.setCall_region, State.setRegion_region, undoFree]
    split
    · exact hset rfl
    · exact ha
  | @alloced t id size hc hr hro =>
    rw [State.setRegion_region]
    refine ⟨(tmAlloc_align ..).trans ha.1, ?_⟩
    intro k hk
    obtain rfl | hki := eq_or_ne k (tmAlloc s.region size).1
    · rw [tmAlloc_self]
      exact ha.1
    · rw [tmAlloc_ne hki]
      exact ha.2 k (lt_of_lt_tmAlloc hk hki)
  | freed hc hr hro hseg hf =>
    rw [State.setRegion_region, tmFree_eq_some hf]
    exact hset rfl
  | flagged => exact ha
  | closed hc hr hn hcommit =>
    have hspec := commitTranscationsInEpoch_spec hcommit
    refine ⟨hspec.align.trans ha.1, ?_⟩
    intro k hk
    rw [State.setRegion_region, (.commit hspec : s.region.SameSegment k _).segmentAlign]
    exact ha.2 k (hspec.nSegments ▸ hk)
  | _ => exact ha

/-- A step that does not change the epoch does not end it. -/
theorem Step.not_closes (hs : Step s e s') (hep : s'.epoch = s.epoch) : ¬ e.closes := by
  rcases hs.epoch with ⟨hc, -⟩ | ⟨-, -, hep'⟩
  · exact hc
  · omega

end

/-! ## The loop of `tm_write`

The loop of a thread while the others do steps of their own. Each turn writes the next word,
and a word that is written stays with its transaction until this leaves. -/

/-- A `tm_write` of the words `source`: its loop under way, over, or given up. -/
inductive WriteLoop (t : τ) (T : Txn) (seg start : ℕ) (stop : ℤ) (source : ℕ → W)
    (g : List (Event τ W)) (s : State τ W) : Prop where
  /-- the words so far are written -/
  | running {off : ℕ} (hep : T.epoch = s.epoch)
      (hc : InCall s t T.id (.writing seg start (start + off) stop source off))
      (hown : ∀ i < off, ((start + i : ℕ) : ℤ) < stop ∧
        .wrote T (seg, start + i) (source i) ∈ g ∧
        (s.region.word (seg, start + i)).OwnedBy T.id (source i))
  /-- all words of the range are written -/
  | done (hep : T.epoch = s.epoch) (hc : InCall s t T.id .rest)
      (hown : ∀ i : ℕ, ((start + i : ℕ) : ℤ) < stop →
        .wrote T (seg, start + i) (source i) ∈ g ∧
        (s.region.word (seg, start + i)).OwnedBy T.id (source i))
  /-- some word was refused -/
  | gaveUp {i j : ℕ} (hep : T.epoch = s.epoch) (hc : InCall s t T.id (.aborting i j))
  /-- the transaction has left, after a word was refused -/
  | left (hc : s.client t = .outside) (hr : s.call t = .rest)

section

variable [Fintype τ] [Zero W] {s s' : State τ W} {e : Event τ W} {g : List (Event τ W)} {t : τ}
  {T : Txn} {seg start : ℕ} {stop : ℤ} {source : ℕ → W}

theorem writeLoop_step (hloop : WriteLoop t T seg start stop source g s) (hs : Step s e s')
    (hg : GateInv s.gate) (hbusy : s.call t ≠ .rest) (hk : e.keeps seg) :
    WriteLoop t T seg start stop source (e :: g) s' ∧
      ∀ ℓ v, e = .wrote T ℓ v → ∃ i : ℕ, ℓ = (seg, start + i) ∧ ((start + i : ℕ) : ℤ) < stop := by
  have htxn : T.epoch = s.epoch → s.txn T.id = T := fun hep => by rw [State.txn, ← hep]
  -- a word stays written while its writer does not write it again or give up
  have hkeep : ∀ {i : ℕ} {v : W}, T.epoch = s.epoch → s'.epoch = s.epoch →
      (∀ u, e ≠ .wrote T (seg, start + i) u) → e ≠ .released T (seg, start + i) →
      (s.region.word (seg, start + i)).OwnedBy T.id v →
      (s'.region.word (seg, start + i)).OwnedBy T.id v := by
    intro i v hep hep' hwr hrel ho
    have hc := hs.not_closes hep'
    rw [← htxn hep] at hwr hrel
    have hword := hs.wordStep (ℓ := (seg, start + i)) hk.not_alloced fun h => absurd h hc
    exact (hword.owned ho hwr hrel).1 hc
  cases hloop with
  | @running off hep hc hown =>
    rcases hs.thread_cases hg hc with ⟨hc', hep', hother⟩ | ⟨c', hstep, hc', hep'⟩ | ⟨hstep, -⟩
    · -- somebody else's step
      rw [htxn hep] at hother
      refine ⟨.running (hep.trans hep'.symm) hc' fun i hi => ⟨(hown i hi).1,
        List.mem_cons_of_mem _ (hown i hi).2.1, ?_⟩, ?_⟩
      · refine hkeep hep hep' ?_ ?_ (hown i hi).2.2
        · rintro u rfl
          exact hother rfl
        · rintro rfl
          exact hother rfl
      · rintro ℓ v rfl
        exact absurd rfl hother
    · cases hstep with
      | wrote hidx hw =>
        have hword := hs.wordStep (ℓ := (seg, start + off)) hk.not_alloced fun h =>
          absurd h (hs.not_closes hep')
        have hc' : InCall s' t T.id
            (.writing seg start (start + (off + 1)) stop source (off + 1)) := hc'
        refine ⟨.running (hep.trans hep'.symm) hc' ?_, ?_⟩
        · intro i hi
          rcases Nat.lt_succ_iff_lt_or_eq.mp hi with hlt | rfl
          · refine ⟨(hown i hlt).1, List.mem_cons_of_mem _ (hown i hlt).2.1,
              hkeep hep hep' ?_ (by simp) (hown i hlt).2.2⟩
            intro u heq
            injection heq with _ heq
            injection heq with _ heq
            omega
          · rw [htxn hep]
            exact ⟨hidx, List.mem_cons_self, hword.of_wrote⟩
        · intro ℓ v heq
          injection heq with _ heq _
          exact ⟨off, heq.symm, hidx⟩
      | writeRefused hidx hw =>
        exact ⟨.gaveUp (hep.trans hep'.symm) hc', by rintro ℓ v ⟨⟩⟩
      | writeDone hidx =>
        refine ⟨.done (hep.trans hep'.symm) hc' ?_, by rintro ℓ v ⟨⟩⟩
        intro i hi
        have hlt : i < off := by
          by_contra hge
          refine hidx (lt_of_le_of_lt ?_ hi)
          exact_mod_cast Nat.add_le_add_left (not_lt.mp hge) start
        exact ⟨List.mem_cons_of_mem _ (hown i hlt).2.1,
          hkeep hep hep' (by rintro u ⟨⟩) (by rintro ⟨⟩) (hown i hlt).2.2⟩
    · cases hstep
  | done hep hc hown => exact absurd hc.call hbusy
  | @gaveUp i j hep hc =>
    rcases hs.thread_cases hg hc with ⟨hc', hep', hother⟩ | ⟨c', hstep, hc', hep'⟩ |
      ⟨hstep, hc', hr'⟩
    · rw [htxn hep] at hother
      refine ⟨.gaveUp (hep.trans hep'.symm) hc', ?_⟩
      rintro ℓ v rfl
      exact absurd rfl hother
    · cases hstep with
      | released => exact ⟨.gaveUp (hep.trans hep'.symm) hc', by rintro ℓ v ⟨⟩⟩
      | undone => exact ⟨.gaveUp (hep.trans hep'.symm) hc', by rintro ℓ v ⟨⟩⟩
    · cases hstep with
      | aborted => exact ⟨.left hc' hr', by rintro ℓ v ⟨⟩⟩
  | left hc hr => exact absurd hr hbusy

end

/-! ## The loop of `tm_read`

The loop reads the words of the range in their order. Each turn adds to the target what the
transaction sees at that word. -/

/-- What `tm_read` copies: the words one after the other, `align` bytes apart. -/
def copied (align : ℕ) (words : ℕ → W) (k : ℕ) : List (ℕ × W) :=
  (List.range k).map fun i => (i * align, words i)

theorem copied_succ (align : ℕ) (words : ℕ → W) (k : ℕ) :
    copied align words (k + 1) = copied align words k ++ [(k * align, words k)] := by
  simp [copied, List.range_succ]

/-- A `tm_read` of words that the transaction has written: under way, or over. -/
inductive ReadLoop (t : τ) (T : Txn) (seg start : ℕ) (stop : ℤ) (align : ℕ) (words : ℕ → W)
    (g : List (Event τ W)) (s : State τ W) : Prop where
  /-- `k` words are copied -/
  | running {k : ℕ} (hep : T.epoch = s.epoch)
      (hc : InCall s t T.id
        (.reading seg start (start + k) stop (k * align) (copied align words k)))
      (hk : ∀ i < k, ((start + i : ℕ) : ℤ) < stop) (hro : (s.thread t).isRo = false)
      (halign : (s.region.segments seg).align = align)
      (hown : ∀ i : ℕ, ((start + i : ℕ) : ℤ) < stop →
        (s.region.word (seg, start + i)).OwnedBy T.id (words i))
  /-- all words are copied -/
  | done {k : ℕ} {g' : List (Event τ W)} (hep : T.epoch = s.epoch) (hc : InCall s t T.id .rest)
      (hg : g = .readDone T seg start (copied align words k) :: g')
      (hk : ∀ i : ℕ, i < k ↔ ((start + i : ℕ) : ℤ) < stop)

section

variable [Fintype τ] [Zero W] {s s' : State τ W} {e : Event τ W} {h g : List (Event τ W)}
  {t : τ} {T : Txn} {seg start align : ℕ} {stop : ℤ} {words : ℕ → W}

theorem readLoop_step (hloop : ReadLoop t T seg start stop align words g s) (hs : Step s e s')
    (hb : Books h s) (hbusy : s.call t ≠ .rest) (hk : e.keeps seg) :
    ReadLoop t T seg start stop align words (e :: g) s' := by
  cases hloop with
  | @running k hep hc hlt hro halign hown =>
    have hT : s.txn T.id = T := by rw [State.txn, ← hep]
    have hro' : (s'.thread t).isRo = false := (hs.isRo hc.client).trans hro
    have halign' : (s'.region.segments seg).align = align :=
      (hs.sameSegment hk).segmentAlign.trans halign
    have hown' : s'.epoch = s.epoch → (∀ ℓ u, e ≠ .wrote T ℓ u) → (∀ ℓ, e ≠ .released T ℓ) →
        ∀ i : ℕ, ((start + i : ℕ) : ℤ) < stop →
          (s'.region.word (seg, start + i)).OwnedBy T.id (words i) := by
      intro hep' hwr hrel i hi
      have hc := hs.not_closes hep'
      refine ((hs.wordStep (ℓ := (seg, start + i)) hk.not_alloced fun h => absurd h hc).owned
        (hown i hi) ?_ ?_).1 hc
      · rw [hT]
        exact hwr _
      · rw [hT]
        exact hrel _
    rcases hs.thread_cases hb.gate hc with ⟨hc', hep', hother⟩ | ⟨c', hstep, hc', hep'⟩ |
      ⟨hstep, -⟩
    · rw [hT] at hother
      refine .running (hep.trans hep'.symm) hc' hlt hro' halign' (hown' hep' ?_ ?_)
      · rintro ℓ u rfl
        exact hother rfl
      · rintro ℓ rfl
        exact hother rfl
    · have hflag : s.region.isRoFlags T.id = false :=
        (hb.threads.flag hc.client (by rw [hc.call]; simp)).trans hro
      cases hstep with
      | @read _ _ _ _ _ _ v hidx hv =>
        -- the word is there, and it is the one written
        obtain rfl : words k = v := by
          rw [hflag, readWord_of_ownedBy (hown k hidx)] at hv
          exact Option.some.inj hv
        rw [halign, ← copied_succ, ← Nat.succ_mul] at hc'
        refine .running (k := k + 1) (hep.trans hep'.symm) hc' ?_ hro' halign'
          (hown' hep' (by rintro ℓ u ⟨⟩) (by rintro ℓ ⟨⟩))
        intro i hi
        rcases Nat.lt_succ_iff_lt_or_eq.mp hi with hi | rfl
        · exact hlt i hi
        · exact hidx
      | readRefused hidx hv =>
        rw [hflag, readWord_of_ownedBy (hown k hidx)] at hv
        cases hv
      | readDone hidx =>
        refine .done (k := k) (hep.trans hep'.symm) hc' (by rw [hT]) fun i => ⟨hlt i, fun hi => ?_⟩
        by_contra hge
        refine hidx (lt_of_le_of_lt ?_ hi)
        exact_mod_cast Nat.add_le_add_left (not_lt.mp hge) start
    · cases hstep
  | done hep hc hg hk => exact absurd hc.call hbusy

/-! ## Calls as wholes

A call as a whole: from the step in which it begins to the one in which its loop has come to
its end, with everything the others do in between. -/

/-- A run of any kind is one that records the history. -/
theorem Run.books {Q : Discipline (State τ W) (Event τ W)} {s₀ : State τ W} (hrest : s₀.AtRest)
    (hr₀ : Run State.step anyStep s₀ h s) (hr : Run State.step Q s g s') : Books (g ++ h) s' :=
  .run hrest (hr₀.trans hr.any)

omit [Fintype τ] [DecidableEq τ] [Zero W] in
/-- What the bounds of a loop are computed from. -/
theorem range_eq_some {addr size : ℕ} :
    s.range addr size = some (seg, start, stop) ↔
      (0 ≤ extractSegIdFromVirtAddr addr ∧ (extractSegIdFromVirtAddr addr).toNat = seg) ∧
        (seg < s.region.nSegments ∧
          start + size / s.region.align ≤ (s.region.segments seg).nWords) ∧
        extractWordIndexFromVirtAddr addr (s.region.segments seg).align = start ∧
        toInt32 (start + toInt32 (size / s.region.align : ℕ)) = stop := by
  rw [State.range]
  generalize extractSegIdFromVirtAddr addr = k
  constructor
  · intro hr
    split at hr
    · rename_i hg
      obtain ⟨rfl, hbounds⟩ := Prod.mk.inj (Option.some.inj hr)
      obtain ⟨rfl, hstop⟩ := Prod.mk.inj hbounds
      exact ⟨⟨hg.1, rfl⟩, hg.2, rfl, hstop⟩
    · cases hr
  · rintro ⟨⟨hk, rfl⟩, hg, rfl, hstop⟩
    rw [if_pos ⟨hk, hg⟩, hstop]

omit [Fintype τ] [DecidableEq τ] [Zero W] in
/-- The segment being the same, so is the range. -/
theorem range_sameSegment {addr size : ℕ} (hsame : s.region.SameSegment seg s'.region)
    (hr : s.range addr size = some (seg, start, stop)) :
    s'.range addr size = some (seg, start, stop) := by
  obtain ⟨hseg, ⟨hlt, hfits⟩, hstart, hstop⟩ := range_eq_some.mp hr
  rw [range_eq_some, hsame.segmentAlign, hsame.align, hsame.nWords]
  exact ⟨hseg, ⟨hlt.trans_le hsame.nSegments, hfits⟩, hstart, hstop⟩

omit [Fintype τ] in
theorem Run.sameSegment {Q : Discipline (State τ W) (Event τ W)}
    (hQ : ∀ h s e, Q h s e → e.keeps seg) (hr : Run State.step Q s g s') :
    s.region.SameSegment seg s'.region := by
  induction hr with
  | start => exact .refl _
  | next _ hs hq ih => exact ih.trans ((step_cases hs).sameSegment (hQ _ _ _ hq))

/-- A write is carried along a run in which its author does not write the word
again. -/
theorem Run.carried {Q : Discipline (State τ W) (Event τ W)} {s₀ : State τ W} {ℓ : Loc} {v : W}
    (hQ : ∀ h s e, Q h s e → e.keeps ℓ.1) (hrest : s₀.AtRest)
    (hr₀ : Run State.step anyStep s₀ h s) (hl : s.region.Live ℓ.1) (hv : s.Valid ℓ)
    (hca : Carried T v ℓ h s) (hr : Run State.step Q s g s') (hwr : ∀ w, .wrote T ℓ w ∉ g) :
    Carried T v ℓ (g ++ h) s' := by
  induction hr with
  | start => exact hca
  | @next g s₁ s₂ a e hr hs hq ih =>
    have hsame := Run.sameSegment hQ hr
    have hrun := hr₀.trans hr.any
    apply carried_step (ih fun w hw => hwr w (List.mem_cons_of_mem _ hw)) (.run hrest hrun)
      (.run hrest hrun) (.run hrest (hrun.next hs trivial)) (step_cases hs) (hsame.live hl)
      (hv.sameSegment hsame) (hQ _ _ _ hq)
    rintro w rfl
    exact hwr w List.mem_cons_self

omit [Zero W] in
/-- What a running transaction has on a word it carries on. -/
theorem Word.OwnedBy.carried {ℓ : Loc} {v : W} (hb : Books h s) (hT : Running s T)
    (hmem : .wrote T ℓ v ∈ h) (ho : (s.region.word ℓ).OwnedBy T.id v) : Carried T v ℓ h s := by
  have hep : T.epoch = s.epoch := by
    obtain ⟨t, -, hep, -⟩ := hT
    exact hep
  have htxn : s.txn T.id = T := by rw [State.txn, ← hep]
  refine ⟨hep.le, ?_, fun _ _ => ho, fun hlt => absurd hep hlt.ne⟩
  intro _
  rw [ho.owner, htxn]
  exact ⟨⟨v, hmem⟩, (hT.sound hb).1, fun i j ha => absurd ha (hT.not_aborting hb)⟩

omit [Fintype τ] in
/-- A `tm_write` that begins is at the first word of its range, with nothing written. -/
theorem step_tmWrite {source : ℕ → W} {size addr : ℕ}
    (hrange : s.range addr size = some (seg, start, stop))
    (hs : s.step (.tmWrite t source size addr) = some (s', .silent)) :
    s.call t = .rest ∧ (s.thread t).isRo = false ∧
      s' = s.setCall t (.writing seg start start stop source 0) := by
  simp only [State.step] at hs
  split at hs
  · rename_i seg' start' stop' hc hr hrange' hro
    rw [hrange] at hrange'
    obtain ⟨rfl, hrest⟩ := Prod.mk.inj (Option.some.inj hrange')
    obtain ⟨rfl, rfl⟩ := Prod.mk.inj hrest
    exact ⟨hr, hro, (Prod.mk.inj (Option.some.inj hs)).1.symm⟩
  · cases hs

omit [Fintype τ] in
/-- A `tm_read` that begins is at the first word of its range, with nothing read. -/
theorem step_tmRead {size addr id : ℕ} (hrange : s.range addr size = some (seg, start, stop))
    (hc : InCall s t id .rest) :
    s.step (.tmRead t addr size) =
      some (s.setCall t (.reading seg start start stop 0 []), .silent) := by
  have hclient := hc.client
  have hcall := hc.call
  simp only [State.step, hclient, hcall, hrange]

omit [Fintype τ] in
theorem call_of_tmRead {size addr : ℕ}
    (hs : s.step (.tmRead t addr size) = some (s', .silent)) : s.call t = .rest := by
  simp only [State.step] at hs
  split at hs
  · rename_i hr _
    exact hr
  · cases hs

/-- A `tm_write` writes words of its range only, and all of them if it returns
`true`. -/
theorem writeLoop_run {s₀ : State τ W} {source : ℕ → W} {size addr id : ℕ} (hrest : s₀.AtRest)
    (hr₀ : Run State.step anyStep s₀ h s) (hid : s.client t = .inside id)
    (hrange : s.range addr size = some (seg, start, stop))
    (hw : s.Returns seg t (.tmWrite t source size addr) g s') :
    WriteLoop t (s.txn id) seg start stop source g s' ∧
      ∀ ℓ v, .wrote (s.txn id) ℓ v ∈ g →
        ∃ i : ℕ, ℓ = (seg, start + i) ∧ ((start + i : ℕ) : ℤ) < stop := by
  obtain ⟨s₁, hs, hr, -⟩ := hw
  obtain ⟨-, -, rfl⟩ := step_tmWrite hrange hs
  have hr₁ := hr₀.next hs trivial
  induction hr with
  | start =>
    exact ⟨.running rfl ⟨hid, State.setCall_call_self ..⟩ (fun i hi => absurd hi i.not_lt_zero),
      by simp⟩
  | @next g s₂ s₃ a e hr hs' hq ih =>
    have hb := Run.books hrest hr₁ hr
    obtain ⟨hloop, hwrote⟩ := ih
    obtain ⟨hloop', he⟩ := writeLoop_step hloop (step_cases hs') hb.gate hq.1 hq.2
    refine ⟨hloop', fun ℓ v hmem => ?_⟩
    rcases List.mem_cons.mp hmem with rfl | hmem
    · exact he ℓ v rfl
    · exact hwrote ℓ v hmem

/-- A `tm_read` of words that the transaction has written copies them. -/
theorem readLoop_run {s₀ : State τ W} (hrest : s₀.AtRest)
    (hr₀ : Run State.step anyStep s₀ h s) (hc : InCall s t T.id .rest) (hep : T.epoch = s.epoch)
    (hrange : ∃ addr size, s.range addr size = some (seg, start, stop))
    (hro : (s.thread t).isRo = false) (halign : (s.region.segments seg).align = align)
    (hown : ∀ i : ℕ, ((start + i : ℕ) : ℤ) < stop →
      (s.region.word (seg, start + i)).OwnedBy T.id (words i))
    (hr : Run State.step (busy t seg) (s.setCall t (.reading seg start start stop 0 [])) g s') :
    ReadLoop t T seg start stop align words g s' := by
  obtain ⟨addr, size, hrange⟩ := hrange
  have hr₁ := hr₀.next (step_tmRead hrange hc) trivial
  have hloop : ReadLoop t T seg start stop align words []
      (s.setCall t (.reading seg start start stop 0 [])) := by
    refine .running (k := 0) hep ⟨hc.client, ?_⟩ (by simp) ?_ halign hown
    · rw [State.setCall_call_self, Nat.zero_mul]
      rfl
    · rw [State.setCall_isRo]
      exact hro
  induction hr with
  | start => exact hloop
  | next hr hs hq ih =>
    exact readLoop_step ih (step_cases hs) (Run.books hrest hr₁ hr) hq.1 hq.2

/-- Within its epoch, a transaction would read the same as long as it does not
write the word or give up. -/
theorem Run.shown_eq {Q : Discipline (State τ W) (Event τ W)} {s₀ : State τ W} {ℓ : Loc}
    (hrest : s₀.AtRest) (hr₀ : Run State.step anyStep s₀ h s) (hr : Run State.step Q s g s')
    (hk : ∀ e ∈ g, e.keeps ℓ.1) (hT : T.epoch = s.epoch) (hep : s'.epoch = s.epoch)
    (hsound : Sound (g ++ h) s' T) (hwr : ∀ w, .wrote T ℓ w ∉ g) :
    (s'.region.word ℓ).shown T.id = (s.region.word ℓ).shown T.id := by
  induction hr with
  | start => rfl
  | @next g s₁ s₂ a e hr hs _ ih =>
    obtain ⟨hke, hk⟩ := List.forall_mem_cons.mp hk
    have hstep := step_cases hs
    have hle : s.epoch ≤ s₁.epoch := hr.epoch_le
    have hle' : s₁.epoch ≤ s₂.epoch := (Run.start (Q := anyStep).next hs trivial).epoch_le
    have hep₁ : s₁.epoch = s.epoch := by omega
    obtain ⟨hsound, hrel⟩ := hstep.sound (Run.books hrest hr₀ hr) hsound
    have hc := hstep.not_closes (hep.trans hep₁.symm)
    have htxn : s₁.txn T.id = T := by rw [State.txn, hep₁, ← hT]
    rw [(hstep.wordStep (ℓ := ℓ) hke.not_alloced fun h => absurd h hc).shown_eq hc ?_ ?_]
    · exact ih hk hep₁ hsound fun w hw => hwr w (List.mem_cons_of_mem _ hw)
    · rw [htxn]
      rintro w rfl
      exact hwr w List.mem_cons_self
    · rw [htxn]
      exact hrel ℓ

end

/-! ## What is known after a `tm_write`

What a `tm_write` has written is there until the transaction leaves. So every later read of the
range finds it, by the same transaction now and by the others after the commit. -/

section

variable [Fintype τ] [Zero W] {s₀ s₁ s₂ : State τ W} {h₁ g₁ : List (Event τ W)} {t : τ}
  {id seg start n addr align : ℕ} {stop : ℤ} {source word : ℕ → W}

/-- The transaction of a `tm_write` is not read-only, as long as it lasts. -/
theorem isRo_of_tmWrite {g : List (Event τ W)} {s : State τ W} {u : τ} (hrest : s₀.AtRest)
    (hr₁ : Run State.step anyStep s₀ h₁ s₁) (hid : s₁.client t = .inside id)
    (hro : (s₁.thread t).isRo = false) (hr : Run State.step anyStep s₁ g s)
    (hu : s.client u = .inside id) (hep : s.epoch = s₁.epoch) : (s.thread u).isRo = false := by
  have hb₁ := Books.run hrest hr₁
  have hb := Run.books hrest hr₁ hr
  have hflag := hb.flags hu
  rw [show s.txn id = s₁.txn id by rw [State.txn, hep],
    flagOf_append (mem_begun (hb₁.ids.holds.mp hid).1) hb.ids.nodup, hb₁.flags hid, hro] at hflag
  exact (Option.some.inj hflag).symm

omit [Fintype τ] in
theorem Run.aligned {Q : Discipline (State τ W) (Event τ W)} {g : List (Event τ W)}
    {s : State τ W} (halign : s₀.region.Aligned align) (hr : Run State.step Q s₀ g s) :
    s.region.Aligned align := by
  induction hr with
  | start => exact halign
  | next _ hs _ ih => exact (step_cases hs).aligned ih

/-- What is known when a `tm_write` of `source`, called in `s₁`, has returned `true`. -/
structure WrittenRange (align : ℕ) (t : τ) (T : Txn) (addr size seg start : ℕ) (stop : ℤ)
    (source : ℕ → W) (h₁ g₁ : List (Event τ W)) (s₁ s₂ : State τ W) : Prop where
  /-- the call is part of the run -/
  run : Run State.step anyStep s₁ (g₁ ++ [.silent]) s₂
  /-- the transaction goes on -/
  epoch : T.epoch = s₂.epoch
  /-- the thread is between two calls of its transaction -/
  inCall : InCall s₂ t T.id .rest
  /-- the transaction is not read-only -/
  isRo : ∀ {g s u}, Run State.step anyStep s₂ g s → s.epoch = T.epoch →
    s.client u = .inside T.id → (s.thread u).isRo = false
  /-- the segment is in use -/
  live : s₂.region.Live seg
  /-- the words of the segment have the alignment of the region -/
  align : (s₂.region.segments seg).align = align
  /-- the bounds of the loop -/
  range : s₂.range addr size = some (seg, start, stop)
  /-- every word the loop reached is written -/
  own : ∀ i : ℕ, ((start + i : ℕ) : ℤ) < stop → s₂.Valid (seg, start + i) ∧
    Carried T (source i) (seg, start + i) (g₁ ++ .silent :: h₁) s₂
  /-- no other word is written -/
  only : ∀ ℓ v, .wrote T ℓ v ∈ g₁ → ∃ i : ℕ, ℓ = (seg, start + i) ∧ ((start + i : ℕ) : ℤ) < stop

theorem writtenRange {size : ℕ} (hrest : s₀.AtRest) (halign : s₀.region.Aligned align)
    (hr₁ : Run State.step anyStep s₀ h₁ s₁) (hid : s₁.client t = .inside id)
    (hrange : s₁.range addr size = some (seg, start, stop)) (hlive : s₁.region.Live seg)
    (hw : s₁.Returns seg t (.tmWrite t source size addr) g₁ s₂)
    (htrue : s₂.client t = .inside id) :
    s₁.call t = .rest ∧ (s₁.thread t).isRo = false ∧
      WrittenRange align t (s₁.txn id) addr size seg start stop source h₁ g₁ s₁ s₂ := by
  obtain ⟨hloop, hwrote⟩ := writeLoop_run hrest hr₁ hid hrange hw
  obtain ⟨s₁', hs₁, hrun, hrest₂⟩ := hw
  obtain ⟨hcall, hro, rfl⟩ := step_tmWrite hrange hs₁
  have hr₁₂ : Run State.step anyStep s₁ (g₁ ++ [.silent]) s₂ :=
    (Run.start.next hs₁ trivial).trans hrun.any
  have hr₂ : Run State.step anyStep s₀ (g₁ ++ .silent :: h₁) s₂ :=
    (hr₁.next hs₁ trivial).trans hrun.any
  have hsame : s₁.region.SameSegment seg s₂.region :=
    Run.sameSegment (s := s₁.setCall t (.writing seg start start stop source 0))
      (fun _ _ _ h => h.2) hrun
  cases hloop with
  | running _ hc _ =>
    rw [hc.call] at hrest₂
    cases hrest₂
  | gaveUp _ hc =>
    rw [hc.call] at hrest₂
    cases hrest₂
  | left hc _ =>
    rw [hc] at htrue
    cases htrue
  | done hep hc hown =>
    refine ⟨hcall, hro, hr₁₂, hep, hc, fun {g s u} hr hep' hu => ?_, hsame.live hlive, ?_,
      range_sameSegment hsame hrange, fun i hi => ⟨?_, ?_⟩, hwrote⟩
    · exact isRo_of_tmWrite hrest hr₁ hid hro (hr₁₂.trans hr) hu hep'
    · rw [hsame.segmentAlign]
      exact (hr₁.aligned halign).2 seg hlive.1
    · exact State.Valid.sameSegment (s := s₁) hsame ((range_inRange hrange).valid hi)
    · exact (hown i hi).2.carried (.run hrest hr₂) ⟨t, htrue, hep, by rw [hrest₂]; rfl⟩
        (List.mem_append_left _ (hown i hi).1)

namespace WrittenRange

variable {T : Txn} {size : ℕ}

/-- While its author does not write it again, a word of the range is carried on. -/
theorem carried (hw : WrittenRange align t T addr size seg start stop source h₁ g₁ s₁ s₂)
    (hrest : s₀.AtRest) (hr₁ : Run State.step anyStep s₀ h₁ s₁) {i : ℕ} {g : List (Event τ W)}
    {s : State τ W} (hr : Run State.step (keepsSegment seg) s₂ g s)
    (hi : ((start + i : ℕ) : ℤ) < stop) (hwr : ∀ w, .wrote T (seg, start + i) w ∉ g) :
    Carried T (source i) (seg, start + i) (g ++ (g₁ ++ .silent :: h₁)) s := by
  have hr₂ := hr₁.trans hw.run
  rw [List.append_assoc, List.singleton_append] at hr₂
  exact Run.carried (fun _ _ _ h => h) hrest hr₂ hw.live (hw.own i hi).1 (hw.own i hi).2 hr hwr

/-- A later `tm_read` of the range by the same transaction, its calls and all. -/
theorem readLoop (hw : WrittenRange align t T addr size seg start stop source h₁ g₁ s₁ s₂)
    (hrest : s₀.AtRest) (hr₁ : Run State.step anyStep s₀ h₁ s₁) {g₂ g₃ : List (Event τ W)}
    {s₃ s₄ : State τ W} (hr : Run State.step (keepsSegment seg) s₂ g₂ s₃)
    (hwr : ∀ i : ℕ, ((start + i : ℕ) : ℤ) < stop → ∀ w, .wrote T (seg, start + i) w ∉ g₂)
    (hc : InCall s₃ t T.id .rest) (hep : T.epoch = s₃.epoch)
    (hr' : Run State.step (busy t seg) (s₃.setCall t (.reading seg start start stop 0 [])) g₃
      s₄) : ReadLoop t T seg start stop align source g₃ s₄ := by
  have hsame := Run.sameSegment (fun _ _ _ h => h) hr
  have hr₂ := hr₁.trans hw.run
  rw [List.append_assoc, List.singleton_append] at hr₂
  have hr₃ := hr₂.trans hr.any
  have hsound : Sound (g₂ ++ (g₁ ++ .silent :: h₁)) s₃ T :=
    Running.sound ⟨t, hc.client, hep, by rw [hc.call]; rfl⟩ (.run hrest hr₃)
  refine readLoop_run hrest hr₃ hc hep ⟨addr, size, range_sameSegment hsame hw.range⟩
    (hw.isRo hr.any hep.symm hc.client) (hsame.segmentAlign.trans hw.align) ?_ hr'
  intro i hi
  exact (hw.carried hrest hr₁ hr hi (hwr i hi)).owned hep.symm hsound

/-- Outside the range, the transaction reads what it would have read before. -/
theorem others (hw : WrittenRange align t T addr size seg start stop source h₁ g₁ s₁ s₂)
    (hrest : s₀.AtRest) (hr₁ : Run State.step anyStep s₀ h₁ s₁) (hT : T = s₁.txn id)
    (hid : s₁.client t = .inside id) (hcall : s₁.call t = .rest)
    (hro : (s₁.thread t).isRo = false) {ℓ : Loc} {v v' : W} {g₂ : List (Event τ W)}
    {s₃ s₄ : State τ W} {a : Action τ W}
    (hout : ∀ i : ℕ, ℓ = (seg, start + i) → ¬ ((start + i : ℕ) : ℤ) < stop)
    (hv : (readWord (s₁.region.segments ℓ.1) T.id (s₁.region.isRoFlags T.id) ℓ.2).1 = some v)
    (hr : Run State.step anyStep s₂ g₂ s₃) (hk : ∀ e ∈ g₂ ++ g₁, e.keeps ℓ.1)
    (hwr : ∀ w, .wrote T ℓ w ∉ g₂) (hs : s₃.step a = some (s₄, .read T ℓ v')) : v' = v := by
  subst hT
  obtain ⟨u, hu, hep, hcur, hbeg, hv'⟩ := (step_cases hs).of_read
  have hr₁₃ := hw.run.trans hr
  have hb₁ := Books.run hrest hr₁
  have hb₃ := Run.books hrest hr₁ hr₁₃
  rw [hb₁.threads.flag hid (by rw [hcall]; simp), hro] at hv
  rw [hb₃.threads.flag hu hbeg, hw.isRo hr hep.symm hu] at hv'
  rw [readWord_eq_shown hv, readWord_eq_shown hv']
  refine Run.shown_eq hrest hr₁ hr₁₃ ?_ rfl hep.symm (Running.sound ⟨u, hu, hep, hcur⟩ hb₃) ?_
  · intro e he
    rw [← List.append_assoc, List.mem_append, List.mem_singleton] at he
    rcases he with he | rfl
    · exact hk e he
    · trivial
  · intro w hmem
    rcases List.mem_append.mp hmem with hmem | hmem
    · exact hwr w hmem
    · rcases List.mem_append.mp hmem with hmem | hmem
      · obtain ⟨i, hi, hlt⟩ := hw.only ℓ w hmem
        exact hout i hi hlt
      · cases List.mem_singleton.mp hmem

/-- Later transactions read what was committed. -/
theorem later (hw : WrittenRange align t T addr size seg start stop source h₁ g₁ s₁ s₂)
    (hrest : s₀.AtRest) (hr₁ : Run State.step anyStep s₀ h₁ s₁) {i : ℕ} {v : W}
    {g₂ : List (Event τ W)} {s₃ s₄ : State τ W} {a : Action τ W} {T' : Txn}
    (hi : ((start + i : ℕ) : ℤ) < stop) (hr : Run State.step (keepsSegment seg) s₂ g₂ s₃)
    (hs : s₃.step a = some (s₄, .read T' (seg, start + i) v)) (hlt : T.epoch < T'.epoch)
    (hE : Ended g₂ T) (hwr : ∀ w, .wrote T (seg, start + i) w ∉ g₂)
    (hno : ∀ U w, T.epoch < U.epoch → U.epoch < T'.epoch → Ended g₂ U →
      .wrote U (seg, start + i) w ∉ g₂)
    (hown : ∀ w, .wrote T' (seg, start + i) w ∉ g₂) : v = source i := by
  have hca := hw.carried hrest hr₁ hr hi hwr
  obtain ⟨u, hu, hep, -, -, hv⟩ := (step_cases hs).of_read
  have hr₂ := hr₁.trans hw.run
  rw [List.append_assoc, List.singleton_append] at hr₂
  have hb₂ := Books.run hrest hr₂
  -- what transactions of later epochs did, they did after the `tm_write`
  have hnew : ∀ {U w}, T.epoch < U.epoch →
      .wrote U (seg, start + i) w ∈ g₂ ++ (g₁ ++ .silent :: h₁) →
      .wrote U (seg, start + i) w ∈ g₂ := by
    intro U w hU hmem
    apply (List.mem_append.mp hmem).resolve_right
    intro hmem
    have := hb₂.ids.begun_lt ((Acts.run hrest hr₂).wrote hmem)
    have hcur : s₂.gate.batcher.curEpoch = T.epoch := hw.epoch.symm
    omega
  have hro : (s₃.region.word (seg, start + i)).readOnly = source i := by
    obtain ⟨b, hE⟩ := hE
    apply hca.kept (hep ▸ hlt) ⟨b, List.mem_append_left _ hE⟩
    intro U w h₁ h₂ hU hmem
    obtain ⟨b', hU⟩ := hU
    refine hno U w h₁ (hep ▸ h₂) ⟨b', (List.mem_append.mp hU).resolve_right ?_⟩ (hnew h₁ hmem)
    intro hU
    have := hb₂.ids.begun_lt (hb₂.ids.begun_of_left ⟨_, hU, b', rfl⟩)
    have hcur : s₂.gate.batcher.curEpoch = T.epoch := hw.epoch.symm
    omega
  have hval := (word_readWord _ _ _ _).2 hv
  rw [← hro]
  split at hval
  · exact hval
  · -- a written word would be the reader's own
    rename_i hn
    have hwritten := (not_or.mp hn).2
    obtain ⟨⟨w, hmem⟩, -⟩ := hca.authored (Bool.not_eq_false _ ▸ hwritten)
    have hacc : (s₃.region.word (seg, start + i)).control.accessSet = T'.id := hval.1
    rw [hacc, State.txn, ← hep] at hmem
    exact absurd (hnew hlt hmem) (hown w)

end WrittenRange

end

end DualStm
