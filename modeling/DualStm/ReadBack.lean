import DualStm.Frees
import DualStm.Parametricity
import DualStm.Ranges
import DualStm.Raw

/-!
# Reading back what was written

`tm_read` undoes `tm_write` over a range of words. Their two loops have to step through
the private buffer alike, their bound has to be an `int`, and so has the offset of every
word that they come to: at another offset they copy bytes that are not in the array.

What the library does with the words of a range that goes astray is not known, but what it
does apart from them is: its runs are, with all words replaced by zero, runs of sound steps
(`Run.blank`). So a `tm_write` of such a range still returns `true`, and the `tm_read` that
follows it still returns, with any bytes at all.
-/

namespace DualStm

variable {τ W : Type} [DecidableEq τ] [Zero W]

/-! ## Steps that may go astray in a range

Where the offset of a word is not an `int`, its access may go anywhere. `SoundBut` is `Sound`
but for the accesses to a given set of words. -/

omit [DecidableEq τ] [Zero W] in
instance (c : Call W) : Decidable (c = .rest) :=
  match c with
  | .rest => .isTrue rfl
  | .beginning | .reading .. | .writing .. | .aborting .. => .isFalse (by rintro ⟨⟩)

omit [DecidableEq τ] [Zero W] in
instance (e : Event τ W) (seg : ℕ) : Decidable (e.keeps seg) :=
  match e with
  | .alloced _ k => inferInstanceAs (Decidable (seg ≠ k))
  | .freed _ k => inferInstanceAs (Decidable (seg ≠ k))
  | .called .. | .waiting .. | .began .. | .read .. | .wrote .. | .refused .. | .released ..
  | .readDone .. | .writeDone .. | .freeRefused .. | .ended .. | .aborted .. | .silent =>
    .isTrue trivial

instance (t : τ) (seg : ℕ) (h : List (Event τ W)) (s : State τ W) (e : Event τ W) :
    Decidable (busy t seg h s e) := inferInstanceAs (Decidable (_ ∧ _))

/-- The words of a range. -/
def inRange (seg start n : ℕ) : Loc → Prop := fun ℓ => ℓ.1 = seg ∧ start ≤ ℓ.2 ∧ ℓ.2 < start + n

instance (seg start n : ℕ) : DecidablePred (inRange seg start n) := fun _ =>
  inferInstanceAs (Decidable (_ ∧ _ ∧ _))

namespace Raw

/-- The step is what the source sets out to do, except that an access to a word of `P` may
be at an offset that is not an `int`; and its commit has room. -/
structure SoundBut (P : Loc → Prop) (r : Raw τ W) (e : Event τ W) : Prop where
  /-- no pointer dangles -/
  still : r.Still
  /-- no other offset goes astray -/
  fits : ∀ ℓ, e.access? = some ℓ → ¬ P ℓ → (r.state.region.segments ℓ.1).HasOffset ℓ.2
  /-- no wait ends by itself -/
  broadcast : r.Broadcast e
  /-- the commit has room -/
  room : e.closes → ∃ region, commitTranscationsInEpoch r.state.region = some region

instance [Fintype τ] (P : Loc → Prop) [DecidablePred P] (r : Raw τ W) (e : Event τ W) :
    Decidable (r.SoundBut P e) :=
  decidable_of_iff (r.Still ∧
    (∀ ℓ ∈ e.access?, ¬ P ℓ → (r.state.region.segments ℓ.1).HasOffset ℓ.2) ∧ r.Broadcast e ∧
      hasRoom [] r.state e)
    ⟨fun h => ⟨h.1, h.2.1, h.2.2.1, h.2.2.2⟩, fun h => ⟨h.still, h.fits, h.broadcast, h.room⟩⟩

/-- The discipline of the runs whose steps are sound but for the accesses to a given set of
words. -/
def except (P : Loc → Prop) (Q : Discipline (State τ W) (Event τ W)) :
    Discipline (Raw τ W) (Event τ W) := fun h r e => r.SoundBut P e ∧ Q h r.state e

instance [Fintype τ] (P : Loc → Prop) [DecidablePred P]
    (Q : Discipline (State τ W) (Event τ W)) [∀ h s e, Decidable (Q h s e)]
    (h : List (Event τ W)) (r : Raw τ W) (e : Event τ W) : Decidable (except P Q h r e) :=
  inferInstanceAs (Decidable (_ ∧ _))

end Raw

/-! ## The library with its words replaced by zero

A step that goes astray in a range stores something else there, and nothing else. With all
words replaced by zero it is a step of the library, so all that does not depend on the words is
known of it. -/

/-- A state with all words replaced by zero. -/
abbrev State.blank (s : State τ W) : State τ W := s.map fun _ => 0

/-- An action with all words replaced by zero. -/
abbrev Action.blank (a : Action τ W) : Action τ W := a.map fun _ => 0

/-- An event with its word replaced by zero. -/
abbrev Event.blank (e : Event τ W) : Event τ W := e.map fun _ => 0

section

variable {s s' : State τ W} {r r' : Raw τ W} {c : Chance W} {a : Action τ W} {e : Event τ W}
  {t : τ} {ℓ : Loc} {P : Loc → Prop} {Q Q' : Discipline (State τ W) (Event τ W)}

omit [DecidableEq τ] [Zero W] in
theorem setSegment_map_self {f : W → W} {region : Region W} {i : ℕ} {segment : Segment W}
    (hsame : segment.map f = (region.segments i).map f) :
    (region.setSegment i segment).map f = region.map f := by
  rw [← setSegment_map, hsame, Region.setSegment, ← Region.map_segments, Function.update_eq_self]

/-- What a step finds in a segment is not seen by a function that does not tell it from
what is there. -/
theorem through_map {f : W → W} (hf : f 0 = 0) {i : ℕ} {seen : Segment W}
    {back : Segment W → Segment W} (hseen : seen.map f = (s.region.segments i).map f)
    (hback : ∀ segment, (back segment).map f = segment.map f) :
    (s.through i seen back a).map (mapStep f) = (s.map f).step (a.map f) := by
  have hsame : (s.setRegion (s.region.setSegment i seen)).map f = s.map f := by
    rw [← State.setRegion_map, setSegment_map_self hseen]
    rfl
  rw [State.through, Option.map_map, ← hsame, State.step_map _ hf]
  congr 1
  funext p
  simp only [Function.comp_apply, mapStep, ← State.setRegion_map, setSegment_map_self (hback _)]
  rfl

/-- A turn of a word loop does, but for the words, what it does in the library. -/
theorem Raw.word_blank (hstill : r.Still) :
    (r.word c t).map (mapStep fun _ => 0) = r.state.blank.step (.word t) := by
  unfold Raw.word
  split
  · rename_i seg idx hdue
    simp only [if_pos (hstill.used (Call.loops_of_due hdue))]
    split
    · exact (State.step_map _ rfl (.word t)).symm
    · exact through_map rfl rfl fun _ => rfl
  · exact (State.step_map _ rfl (.word t)).symm

/-- A step that is sound but for its offset does, but for the words, what it does in the
library. -/
theorem Raw.step_blank (hq : r.SoundBut P e)
    (hid : ∀ {t id}, r.state.client t = .inside id → id < MAX_NUM_SEGMENTS)
    (hs : r.step (c, a) = some (r', e)) :
    r.state.blank.step a.blank = some (r'.state.blank, e.blank) := by
  obtain ⟨⟨s', e'⟩, heffect, he⟩ := Option.map_eq_some_iff.mp hs
  obtain ⟨rfl, rfl⟩ := Prod.mk.inj he
  by_cases ha : ∃ t, a = .word t
  · obtain ⟨t, rfl⟩ := ha
    rw [show r.effect c (.word t) = r.word c t from rfl] at heffect
    exact (Raw.word_blank hq.still).symm.trans (congrArg (Option.map (mapStep _)) heffect)
  · have hstep := Raw.effect_of_ne_word hq.still hq.broadcast hq.room hid (not_exists.mp ha) heffect
    exact (State.step_map _ rfl ..).trans (congrArg (Option.map (mapStep _)) hstep)

variable [Fintype τ] {s₀ : State τ W} {h₀ g : List (Event τ W)}

/-- **The runs whose offsets may go astray are, but for the words, runs of the library.** -/
theorem Run.blank (hcard : Fintype.card τ ≤ MAX_NUM_SEGMENTS) (hrest : s₀.AtRest)
    (hQ : ∀ {h s e}, Q h s e → Q' (h.map Event.blank) s.blank e.blank)
    (hr₀ : Run State.step anyStep s₀ h₀ r.state.blank)
    (hr : Run Raw.step (Raw.except P Q) r g r') :
    Run State.step Q' r.state.blank (g.map Event.blank) r'.state.blank := by
  induction hr with
  | start => exact .start
  | @next g r₁ r₂ ca e _ hs hq ih =>
    obtain ⟨c, a⟩ := ca
    have hb := Books.run hrest (hr₀.trans ih.any)
    exact ih.next (Raw.step_blank hq.1 (fun {t id} hc => hb.id_lt hcard (t := t) hc) hs) (hQ hq.2)

/-! ## Offsets that are an `int`

If the offsets of a range are an `int`, no access to it goes astray, and the runs are runs of
the library again. -/

omit [Fintype τ] in
/-- An access is the one that some loop comes to. -/
theorem Step.due (hs : Step s e s') (hacc : e.access? = some ℓ) : ∃ t, (s.call t).due = some ℓ := by
  cases hs with
  | @read t _ _ _ _ _ _ _ _ hc hr hidx => exact ⟨t, by rw [hr, Call.due, if_pos hidx]; exact hacc⟩
  | @readRefused t _ _ _ _ _ _ _ hc hr hidx =>
    exact ⟨t, by rw [hr, Call.due, if_pos hidx]; exact hacc⟩
  | @wrote t _ _ _ _ _ _ _ _ hc hr hidx => exact ⟨t, by rw [hr, Call.due, if_pos hidx]; exact hacc⟩
  | @writeRefused t _ _ _ _ _ _ _ hc hr hidx =>
    exact ⟨t, by rw [hr, Call.due, if_pos hidx]; exact hacc⟩
  | @left t id fin => cases fin <;> cases hacc
  | @closed t id fin => cases fin <;> cases hacc
  | _ => cases hacc

omit [DecidableEq τ] [Zero W] [Fintype τ] in
theorem Call.window_of_due {c : Call W} (hdue : c.due = some ℓ) :
    ∃ stop, c.window = some (ℓ.1, stop) := by
  cases c with
  | reading seg start idx stop =>
    simp only [Call.due] at hdue
    split at hdue
    · obtain rfl := Option.some.inj hdue
      exact ⟨stop, rfl⟩
    · cases hdue
  | writing seg start idx stop =>
    simp only [Call.due] at hdue
    split at hdue
    · obtain rfl := Option.some.inj hdue
      exact ⟨stop, rfl⟩
    · cases hdue
  | _ => cases hdue

omit [Fintype τ] in
/-- The loops of `tm_read` and `tm_write` work on segments in use. -/
theorem Run.window (hrest : s₀.AtRest) (hr : Run State.step Q s₀ g s) {seg : ℕ} {stop : ℤ}
    (hw : (s.call t).window = some (seg, stop)) : seg < s.region.nSegments := by
  induction hr generalizing t stop with
  | start =>
    rw [hrest.2 t] at hw
    cases hw
  | next _ hs _ ih =>
    have hstep := step_cases hs
    rcases window_step hstep hw with hw | hin
    · exact (ih hw).trans_le hstep.nSegments_le
    · exact hin.1.trans_le hstep.nSegments_le

omit [DecidableEq τ] [Zero W] [Fintype τ] in
theorem due_map {V : Type} (f : W → V) (c : Call W) : (c.map f).due = c.due := by
  cases c <;> rfl

omit [DecidableEq τ] [Zero W] [Fintype τ] in
theorem access_map {V : Type} (f : W → V) (e : Event τ W) : (e.map f).access? = e.access? := by
  cases e <;> rfl

variable {align : ℕ}

/-- **The runs whose offsets are an `int` after all are runs of the library.** -/
theorem Run.ofFits (hcard : Fintype.card τ ≤ MAX_NUM_SEGMENTS) (hrest : s₀.AtRest)
    (halign : s₀.region.Aligned align)
    (hfits : ∀ ℓ, P ℓ → align < 2 ^ 31 ∧ ℓ.2 * align < 2 ^ 31)
    (hr₀ : Run State.step anyStep s₀ h₀ r.state) (hr : Run Raw.step (Raw.except P Q) r g r') :
    Run State.step Q r.state g r'.state := by
  induction hr with
  | start => exact .start
  | @next g r₁ r₂ ca e _ hs hq ih =>
    obtain ⟨c, a⟩ := ca
    have hr₁ := hr₀.trans ih.any
    have hb := Books.run hrest hr₁
    have hid : ∀ {t id}, r₁.state.client t = .inside id → id < MAX_NUM_SEGMENTS := fun hc =>
      hb.id_lt hcard hc
    have hfits : r₁.Fits e := by
      intro ℓ hacc
      by_cases hp : P ℓ
      · -- the word is one of a segment in use
        obtain ⟨t, hdue⟩ := (step_cases (Raw.step_blank hq.1 hid hs)).due
          ((access_map _ e).trans hacc)
        rw [State.call_map, due_map] at hdue
        obtain ⟨stop, hw⟩ := Call.window_of_due hdue
        rw [Segment.HasOffset, (hr₁.aligned halign).2 _ (hr₁.window hrest hw)]
        exact hfits ℓ hp
      · exact hq.1.fits ℓ hacc hp
    exact ih.next (Raw.step_sound ⟨hq.1.still, hfits, hq.1.broadcast⟩ hq.1.room hid hs) hq.2

end

/-! ## A `tm_read` by itself

Nobody else takes a step while it runs. Which bytes it copies from an offset that is not an
`int` is left open; here they are always the same ones. -/

/-- A turn of the loop of `tm_read`, that may find the values `found`. -/
inductive ReadTurn (s : State τ W) (t : τ) (id seg start idx : ℕ) (stop : ℤ) (off : ℕ)
    (target : List (ℕ × W)) (found : W → Prop) : State τ W × Event τ W → Prop where
  /-- a word is copied -/
  | copied {region : Region W} {v : W} (hidx : (idx : ℤ) < stop) (hv : found v) :
    ReadTurn s t id seg start idx stop off target found
      ((s.setRegion region).setCall t
        (.reading seg start (idx + 1) stop (off + (s.region.segments seg).align)
          (target ++ [(off, v)])), .read (s.txn id) (seg, idx) v)
  /-- the transaction has to abort -/
  | refused {region : Region W} (hidx : (idx : ℤ) < stop) :
    ReadTurn s t id seg start idx stop off target found
      ((s.setRegion region).setCall t (.aborting 0 0), .refused (s.txn id) (seg, idx))
  /-- all words are copied -/
  | done (hidx : ¬ (idx : ℤ) < stop) :
    ReadTurn s t id seg start idx stop off target found
      (s.setCall t .rest, .readDone (s.txn id) seg start target)

section

variable {s : State τ W} {r r' : Raw τ W} {c : Chance W} {t : τ} {id seg start idx off : ℕ}
  {stop : ℤ} {target : List (ℕ × W)}

theorem InCall.readTurn (hc : InCall s t id (.reading seg start idx stop off target)) :
    ∃ p, s.step (.word t) = some p ∧ ReadTurn s t id seg start idx stop off target
      (fun v =>
        (readWord (s.region.segments seg) id (s.region.isRoFlags id) idx).1 = some v) p := by
  have hclient := hc.client
  have hcall := hc.call
  simp only [State.step, hclient, State.word, hcall]
  split
  · rename_i hidx
    split
    · rename_i v segment' hv
      exact ⟨_, rfl, .copied hidx (by rw [hv])⟩
    · exact ⟨_, rfl, .refused hidx⟩
  · rename_i hidx
    exact ⟨_, rfl, .done hidx⟩

omit [DecidableEq τ] [Zero W] in
/-- In a segment all of whose words are alike, that word is read. -/
theorem eq_of_readWord {segment : Segment W} {tx j : ℕ} {ro : Bool} {v w : W}
    (hA : segment.wordsArrayA j = w) (hB : segment.wordsArrayB j = w)
    (hv : (readWord segment tx ro j).1 = some v) : v = w := by
  have hcopies : ∀ word : Word W, word.copyA = w → word.copyB = w →
      word.readOnly = w ∧ word.writable = w := by
    intro word hwA hwB
    rw [Word.readOnly, Word.writable, hwA, hwB]
    exact ⟨ite_self _, ite_self _⟩
  obtain ⟨hro, hwr⟩ := hcopies (segment.word j) hA hB
  have hval := (word_readWord _ _ _ _).2 hv
  split at hval
  · exact hval.trans hro
  · exact hval.2.trans hwr

/-- The turn of a `tm_read` in the library with its pointers. What is copied from an offset
that is not an `int` is what happens to be there. -/
theorem Raw.readTurn (hstill : r.Still)
    (hc : InCall r.state t id (.reading seg start idx stop off target)) :
    ∃ p, r.word c t = some p ∧ ReadTurn r.state t id seg start idx stop off target
      (fun v => ¬ (r.state.region.segments seg).HasOffset idx → v = c.word) p := by
  by_cases hidx : (idx : ℤ) < stop
  swap
  · obtain ⟨p, hp, hturn⟩ := hc.readTurn
    refine ⟨p, ?_, ?_⟩
    · rwa [Raw.word, hc.call, Call.due, if_neg hidx]
    · cases hturn with
      | copied h => exact absurd h hidx
      | refused h => exact absurd h hidx
      | done h => exact .done h
  have hdue : (r.state.call t).due = some (seg, idx) := by rw [hc.call, Call.due, if_pos hidx]
  unfold Raw.word
  simp only [hdue, if_pos (hstill.used (Call.loops_of_due hdue))]
  split
  · rename_i hoff
    obtain ⟨p, hp, hturn⟩ := hc.readTurn
    refine ⟨p, hp, ?_⟩
    cases hturn with
    | copied h => exact .copied h fun hno => absurd hoff hno
    | refused h => exact .refused h
    | done h => exact .done h
  · -- the segment is seen with other words
    have hc' : InCall (r.state.setRegion (r.state.region.setSegment seg
        { r.state.region.segments seg with
          wordsArrayA := fun _ => c.word
          wordsArrayB := fun _ => c.word })) t id
        (.reading seg start idx stop off target) := ⟨hc.client, hc.call⟩
    obtain ⟨p, hp, hturn⟩ := hc'.readTurn
    refine ⟨_, congrArg (Option.map _) hp, ?_⟩
    cases hturn with
    | copied h hv =>
      simp only [State.setRegion_region, Region.setSegment_self] at hv ⊢
      exact ReadTurn.copied (s := r.state) h fun _ => eq_of_readWord rfl rfl hv
    | refused h => exact ReadTurn.refused (s := r.state) h
    | done h => exact absurd hidx h

omit [Zero W] in
/-- As long as nobody moves the array, the pointer of a thread that goes on points into it. -/
theorem Raw.Still.after (hstill : r.Still) {a : Action τ W} (region : Region W) (call : Call W)
    (hmoves : r.moves c a = false)
    (hmid : call.midway = true → (r.state.call a.thread).loops = true) :
    (r.after c a ((r.state.setRegion region).setCall a.thread call)).Still := by
  intro u hu
  simp only [Raw.after, hmoves, State.setCall_call] at hu ⊢
  obtain rfl | hua := eq_or_ne u a.thread
  · simp only [Function.update_self, if_true]
    split
    · rename_i h
      exact hstill.used (hmid h)
    · rfl
  · simp only [Function.update_of_ne hua, if_neg hua] at hu ⊢
    exact hstill u hu

variable [Fintype τ] {P : Loc → Prop} {align m : ℕ} {T : Txn} {h g : List (Event τ W)} {w : W}

/-- A `tm_read` of words that the transaction has written, whatever they hold. Its word `m`
may be one whose offset is not an `int`, where it finds `w`. -/
structure ReadAlone (t : τ) (T : Txn) (seg start idx : ℕ) (stop : ℤ) (target : List (ℕ × W))
    (align m : ℕ) (w : W) (h : List (Event τ W)) (r : Raw τ W) : Prop where
  /-- the loop is part of a run -/
  books : Books h r.state.blank
  /-- the loop, the words apart -/
  loop : ∃ g, ReadLoop t T seg start stop align (fun _ => 0) g r.state.blank
  /-- the loop, with its buffer -/
  call : ∃ off, InCall r.state t T.id (.reading seg start idx stop off target)
  /-- no pointer dangles -/
  still : r.Still
  /-- what is in the buffer for the word `m` -/
  found : ¬ (align < 2 ^ 31 ∧ (start + m) * align < 2 ^ 31) →
    ∀ v, (m * align, v) ∈ target → v = w

/-- One turn of a `tm_read` that runs alone. -/
theorem ReadAlone.turn (ha : ReadAlone t T seg start idx stop target align m c.word h r)
    (hpos : 0 < align) (hP : ∀ i : ℕ, ((start + i : ℕ) : ℤ) < stop → P (seg, start + i)) :
    ∃ r' e, r.step (c, .word t) = some (r', e) ∧ Raw.except P (busy t seg) [] r e ∧ r'.Still ∧
      ((e = .readDone T seg start target ∧ r'.state.call t = .rest) ∨
        (idx : ℤ) < stop ∧ ∃ target',
          ReadAlone t T seg start (idx + 1) stop target' align m c.word (e.blank :: h) r') := by
  obtain ⟨g, hloop⟩ := ha.loop
  obtain ⟨off, hc⟩ := ha.call
  obtain ⟨⟨s', e⟩, hword, hturn⟩ := Raw.readTurn (c := c) ha.still hc
  have hs : r.step (c, .word t) = some (r.after c (.word t) s', e) := by
    rw [Raw.step, show r.effect c (.word t) = r.word c t from rfl, hword]
    rfl
  have hblank : r.state.blank.step (.word t) = some (s'.blank, e.blank) := by
    rw [← Raw.word_blank ha.still, hword]
    rfl
  have hbusy : r.state.call t ≠ .rest := by rw [hc.call]; simp
  have hloop' : e.blank.keeps seg →
      ReadLoop t T seg start stop align (fun _ => 0) (e.blank :: g) s'.blank := by
    apply readLoop_step hloop (step_cases hblank) ha.books
    rw [State.call_map, hc.call]
    simp [Call.map]
  refine ⟨_, e, hs, ?_⟩
  cases hturn with
  | @copied region v hidx hv =>
    have hstill := ha.still.after (c := c) (a := .word t) region
      (.reading seg start (idx + 1) stop (off + (r.state.region.segments seg).align)
        (target ++ [(off, v)])) rfl fun _ => by rw [Action.thread, hc.call]; rfl
    cases hloop with
    | done _ hc' =>
      have := hc'.call
      rw [State.call_map, hc.call] at this
      cases this
    | @running k hep hc' _ _ halign =>
      have hk := hc'.call
      rw [State.call_map, hc.call] at hk
      injection hk with _ _ hidxk _ hoff _
      refine ⟨⟨⟨ha.still, ?_, ?_, ?_⟩, hbusy, trivial⟩, hstill, .inr ⟨hidx, target ++ [(off, v)],
        ha.books.step (step_cases hblank), ⟨_, hloop' trivial⟩,
        ⟨_, hc.client, State.setCall_call_self ..⟩, hstill, ?_⟩⟩
      · rintro ℓ hacc hno
        obtain rfl := Option.some.inj hacc
        rw [hidxk] at hidx hno
        exact absurd (hP k hidx) hno
      · rintro u T' ⟨⟩
      · rintro ⟨T', hT'⟩
        cases hT'
      · intro hno u hmem
        rcases List.mem_append.mp hmem with hmem | hmem
        · exact ha.found hno u hmem
        · -- it is the word `m` if its offset says so
          obtain ⟨hm, rfl⟩ := Prod.mk.inj (List.mem_singleton.mp hmem)
          have halign : (r.state.region.segments seg).align = align := halign
          obtain rfl : m = k := Nat.eq_of_mul_eq_mul_right hpos (hm.trans hoff)
          exact hv (by rwa [Segment.HasOffset, halign, hidxk])
  | refused hidx =>
    -- the words are the transaction's own
    cases hloop' trivial with
    | running _ hc' =>
      have := hc'.call
      rw [State.call_map, State.setCall_call_self] at this
      cases this
    | done _ hc' =>
      have := hc'.call
      rw [State.call_map, State.setCall_call_self] at this
      cases this
  | done hidx =>
    have hT : r.state.txn T.id = T := by
      cases hloop with
      | running hep => rw [State.txn, show T = ⟨T.epoch, T.id⟩ from rfl, hep]; rfl
      | done hep => rw [State.txn, show T = ⟨T.epoch, T.id⟩ from rfl, hep]; rfl
    refine ⟨⟨⟨ha.still, ?_, ?_, ?_⟩, hbusy, trivial⟩, ?_, .inl ⟨by rw [hT], ?_⟩⟩
    · rintro ℓ ⟨⟩
    · rintro u T' ⟨⟩
    · rintro ⟨T', hT'⟩
      cases hT'
    · exact ha.still.after r.state.region _ rfl (by rintro ⟨⟩)
    · exact State.setCall_call_self ..

/-- **Left to itself, the `tm_read` returns**, and what it copied for a word whose offset is
not an `int` is what it found there. -/
theorem ReadAlone.returns (ha : ReadAlone t T seg start idx stop target align m w h r)
    (hpos : 0 < align) (hP : ∀ i : ℕ, ((start + i : ℕ) : ℤ) < stop → P (seg, start + i)) :
    ∃ g r', Run Raw.step (Raw.except P (busy t seg)) r g r' ∧ r'.Still ∧
      r'.state.call t = .rest ∧ (¬ (align < 2 ^ 31 ∧ (start + m) * align < 2 ^ 31) →
        ∀ {copied g'}, g = .readDone T seg start copied :: g' →
          ∀ v, (m * align, v) ∈ copied → v = w) := by
  -- induction on the number of turns that are left
  generalize hn : (stop - idx).toNat = n
  induction n using Nat.strong_induction_on generalizing h r idx target with
  | _ n ih =>
    let c : Chance W := ⟨false, false, none, w, r.state.region⟩
    obtain ⟨r', e, hs, hq, hstill, hlast | ⟨hidx, target', ha'⟩⟩ := ha.turn (c := c) hpos hP
    · obtain ⟨rfl, hcall⟩ := hlast
      refine ⟨_, r', .next .start hs hq, hstill, hcall, ?_⟩
      intro hno _ _ heq
      obtain ⟨hdone, -⟩ := List.cons.inj heq
      injection hdone with _ _ _ htarget
      rw [← htarget]
      exact ha.found hno
    · obtain ⟨g, r'', hr, hstill'', hcall, hfound⟩ := ih _ (by omega) ha' rfl
      refine ⟨g ++ [e], r'', Run.append (.next .start hs hq) (hr.mono fun _ _ _ h => h), hstill'',
        hcall, ?_⟩
      intro hno copied g' heq
      cases hr with
      | start =>
        obtain ⟨off, hc⟩ := ha'.call
        rw [hc.call] at hcall
        cases hcall
      | @next g₀ =>
        obtain ⟨rfl, -⟩ := List.cons.inj heq
        exact hfound hno rfl

end

/-! ## What `tm_read` makes of a `tm_write`

What is read after a `tm_write` are the words of the buffer, if the loop writes as many words
as the range has and takes each of them from where it is in the buffer. Only then, since a
`tm_read` that runs alone shows every other word. -/

/-- A call of the thread, from the state it is made in to the one it returns in. Its steps
are sound, except that accesses to words of `P` may go astray. -/
def Raw.Returns (P : Loc → Prop) (seg : ℕ) (t : τ) (a : Action τ W) (r : Raw τ W)
    (g : List (Event τ W)) (r' : Raw τ W) : Prop :=
  ∃ c r₁, r.step (c, a) = some (r₁, .silent) ∧ r.Still ∧
    Run Raw.step (Raw.except P (busy t seg)) r₁ g r' ∧ r'.Still ∧ r'.state.call t = .rest

/-- After a `tm_write` of `n` words at `addr`, called by the thread `t` in its
transaction `T` in the state `r₁` and finished, after the events `g₁`, in `r₂`:
what is read in the range are the words of the buffer, and what is read elsewhere
is what it was. The steps after it are sound, the accesses to the range apart. -/
structure ReadsBack (align : ℕ) (t : τ) (T : Txn) (seg start n addr : ℕ)
    (word : ℕ → W) (g₁ : List (Event τ W)) (r₁ r₂ : Raw τ W) : Prop where
  /-- a `tm_read` of the range by the same transaction returns the buffer -/
  same : ∀ {g₂ g₃ r₃ r₄},
    Run Raw.step (Raw.except (inRange seg start n) (keepsSegment seg)) r₂ g₂ r₃ →
    (∀ i < n, ∀ w, .wrote T (seg, start + i) w ∉ g₂) → r₃.state.client t = .inside T.id →
    T.epoch = r₃.state.epoch →
    r₃.Returns (inRange seg start n) seg t (.tmRead t addr (n * align)) g₃ r₄ →
    r₄.state.client t = .inside T.id ∧
      ∃ g, g₃ = .readDone T seg start (copied align word n) :: g
  /-- what `read_word` would have returned elsewhere, it still returns -/
  others : ∀ {ℓ : Loc} {v v' g₂ r₃}, ¬ inRange seg start n ℓ →
    (readWord (r₁.state.region.segments ℓ.1) T.id (r₁.state.region.isRoFlags T.id) ℓ.2).1 =
      some v →
    Run Raw.step (Raw.except (inRange seg start n) anyStep) r₂ (.read T ℓ v' :: g₂) r₃ →
    (∀ e ∈ g₂ ++ g₁, e.keeps ℓ.1) → (∀ w, .wrote T ℓ w ∉ g₂) → v' = v
  /-- once the transaction has left through `tm_end`, later transactions read the
  buffer, until somebody commits another write -/
  later : ∀ {i v g₂ r₃ T'}, i < n →
    Run Raw.step (Raw.except (inRange seg start n) (keepsSegment seg)) r₂
      (.read T' (seg, start + i) v :: g₂) r₃ →
    T.epoch < T'.epoch → Ended g₂ T →
    (∀ w, .wrote T (seg, start + i) w ∉ g₂) →
    (∀ U w, T.epoch < U.epoch → U.epoch < T'.epoch → Ended g₂ U →
      .wrote U (seg, start + i) w ∉ g₂) →
    (∀ w, .wrote T' (seg, start + i) w ∉ g₂) → v = word i

section

variable {r₀ r r' r₁ r₂ : Raw τ W} {t : τ} {P : Loc → Prop} {e : Event τ W} {a : Action τ W}

omit [DecidableEq τ] [Zero W] in
/-- The step in which a call begins is sound. -/
theorem Raw.Still.silent (hstill : r.Still) : r.Sound (.silent : Event τ W) := by
  refine ⟨hstill, ?_, ?_⟩
  · rintro ℓ ⟨⟩
  · rintro u T ⟨⟩

omit [DecidableEq τ] [Zero W] in
theorem not_closes_silent : ¬ (.silent : Event τ W).closes := by
  rintro ⟨T, hT⟩
  cases hT

omit [DecidableEq τ] in
theorem call_of_blank {s : State τ W} (hc : s.blank.call t = .rest) : s.call t = .rest := by
  rw [State.call_map] at hc
  cases hcall : s.call t with
  | rest => rfl
  | _ =>
    rw [hcall] at hc
    cases hc

variable [Fintype τ] {s₀ : State τ W} {h₀ h₁ g g₁ : List (Event τ W)} {T : Txn}
  {id seg start n addr size align : ℕ} {stop : ℤ} {source word : ℕ → W}

theorem Raw.Returns.blank (hcard : Fintype.card τ ≤ MAX_NUM_SEGMENTS) (hrest : s₀.AtRest)
    (hr₀ : Run State.step anyStep s₀ h₀ r.state.blank) (hw : r.Returns P seg t a g r') :
    r.state.blank.Returns seg t a.blank (g.map Event.blank) r'.state.blank := by
  obtain ⟨c, r₁, hs, hstill, hr, -, hcall⟩ := hw
  have hs' := Raw.step_blank (P := P) ⟨hstill, fun _ h => (by cases h), hstill.silent.broadcast,
    fun h => absurd h not_closes_silent⟩
    (fun {t id} hc => (Books.run hrest hr₀).id_lt hcard (t := t) hc) hs
  refine ⟨_, hs', Run.blank hcard hrest ?_ (hr₀.next hs' trivial) hr, ?_⟩
  · intro h s e hq
    refine ⟨fun hno => hq.1 (call_of_blank hno), ?_⟩
    cases e <;> exact hq.2
  · rw [State.call_map, hcall]
    rfl

theorem Raw.Returns.ofFits (hcard : Fintype.card τ ≤ MAX_NUM_SEGMENTS) (hrest : s₀.AtRest)
    (halign : s₀.region.Aligned align)
    (hfits : ∀ ℓ, P ℓ → align < 2 ^ 31 ∧ ℓ.2 * align < 2 ^ 31)
    (hr₀ : Run State.step anyStep s₀ h₀ r.state) (hw : r.Returns P seg t a g r') :
    r.state.Returns seg t a g r'.state := by
  obtain ⟨c, r₁, hs, hstill, hr, -, hcall⟩ := hw
  have hs' := Raw.step_sound hstill.silent (fun h => absurd h not_closes_silent)
    (fun {t id} hc => (Books.run hrest hr₀).id_lt hcard (t := t) hc) hs
  exact ⟨_, hs', Run.ofFits hcard hrest halign hfits (hr₀.next hs' trivial) hr, hcall⟩

omit [DecidableEq τ] [Zero W] [Fintype τ] in
/-- The loops stay in the range that was computed from the address. -/
theorem inRange_of_lt {s : State τ W} (hrange : s.range addr size = some (seg, start, stop)) {i : ℕ}
    (hi : ((start + i : ℕ) : ℤ) < stop) :
    inRange seg start (size / s.region.align) (seg, start + i) := by
  obtain ⟨-, -, -, rfl⟩ := range_eq_some.mp hrange
  generalize size / s.region.align = n at hi ⊢
  have hlow := neg_le_toInt32 n
  have hle := toInt32_le (n := n) (by omega)
  have hstop := toInt32_le (n := start + toInt32 n) (by omega)
  exact ⟨rfl, by simp, by simp only; omega⟩

/-- **The `tm_read` that follows a `tm_write`** returns, with anything for a word whose
offset is not an `int`. -/
theorem WrittenRange.reads_after {align : ℕ} {h₁ g₁ : List (Event τ W)}
    (hwr : WrittenRange align t T addr size seg start stop (fun _ => 0) h₁ g₁ r₁.state.blank
      r₂.state.blank)
    (hrest : s₀.AtRest) (hr₁ : Run State.step anyStep s₀ h₁ r₁.state.blank) (hstill : r₂.Still)
    (hpos : 0 < align) (hP : ∀ i : ℕ, ((start + i : ℕ) : ℤ) < stop → P (seg, start + i))
    (m : ℕ) (w : W) :
    ∃ g r, r₂.Returns P seg t (.tmRead t addr size) g r ∧
      (¬ (align < 2 ^ 31 ∧ (start + m) * align < 2 ^ 31) →
        ∀ {copied g'}, g = .readDone T seg start copied :: g' →
          ∀ v, (m * align, v) ∈ copied → v = w) := by
  have hcall : r₂.state.call t = .rest := call_of_blank hwr.inCall.call
  have hs := step_tmRead (s := r₂.state) hwr.range ⟨hwr.inCall.client, hcall⟩
  have hblank := step_tmRead hwr.range hwr.inCall
  have hr₂ := hr₁.trans hwr.run
  rw [List.append_assoc, List.singleton_append] at hr₂
  let c : Chance W := ⟨false, false, none, w, r₂.state.region⟩
  have hs' : r₂.step (c, .tmRead t addr size) =
      some (r₂.after c (.tmRead t addr size)
        (r₂.state.setCall t (.reading seg start start stop 0 [])), .silent) :=
    congrArg (Option.map _) hs
  have hstill' := hstill.after (c := c) (a := .tmRead t addr size) r₂.state.region
    (.reading seg start start stop 0 []) rfl fun h => by simp [Call.midway] at h
  have hread : (r₂.state.setCall t (.reading seg start start stop 0 [])).blank =
      r₂.state.blank.setCall t (.reading seg start start stop 0 []) :=
    (State.setCall_map _ r₂.state t _).symm
  have halone : ReadAlone t T seg start start stop [] align m w
      (.silent :: (g₁ ++ .silent :: h₁))
      (r₂.after c (.tmRead t addr size)
        (r₂.state.setCall t (.reading seg start start stop 0 []))) := by
    refine ⟨?_, ⟨[], ?_⟩, ⟨0, hwr.inCall.client, State.setCall_call_self ..⟩, hstill', ?_⟩
    · rw [Raw.after_state, hread]
      exact .run hrest (hr₂.next hblank trivial)
    · rw [Raw.after_state, hread]
      exact hwr.readLoop hrest hr₁ .start (fun _ _ _ => List.not_mem_nil) hwr.inCall hwr.epoch
        .start
    · intro _ v hmem
      cases hmem
  obtain ⟨g, r, hr, hstill, hrest, hfound⟩ := halone.returns hpos hP
  exact ⟨g, r, ⟨c, _, hs', ‹r₂.Still›, hr, hstill, hrest⟩, hfound⟩

/-- A `tm_write` of a range that returned `true`, in a run that is sound but for that range. -/
structure WriteReturned (align : ℕ) (t : τ) (id seg start n addr : ℕ) (stop : ℤ)
    (source : ℕ → W) (r₀ : Raw τ W) (h₁ : List (Event τ W)) (r₁ : Raw τ W)
    (g₁ : List (Event τ W)) (r₂ : Raw τ W) : Prop where
  /-- every id has its flag -/
  card : Fintype.card τ ≤ MAX_NUM_SEGMENTS
  /-- a word is not empty -/
  pos : 0 < align
  /-- the run starts at rest -/
  atRest : r₀.state.AtRest
  /-- the words of every segment have the alignment of the region -/
  aligned : r₀.state.region.Aligned align
  /-- the run leads to the call -/
  run : Run Raw.step (Raw.except (inRange seg start n) anyStep) r₀ h₁ r₁
  /-- the thread is in a transaction -/
  client : r₁.state.client t = .inside id
  /-- the range is inside its segment -/
  range : r₁.state.range addr (n * align) = some (seg, start, stop)
  /-- which is in use -/
  live : r₁.state.region.Live seg
  /-- the segment of the range is in use -/
  returns : r₁.Returns (inRange seg start n) seg t (.tmWrite t source (n * align) addr) g₁ r₂
  /-- the transaction goes on after the call -/
  success : r₂.state.client t = .inside id

namespace WriteReturned

variable {stop : ℤ} (hw : WriteReturned align t id seg start n addr stop source r₀ h₁ r₁ g₁ r₂)

include hw

/-- What is known of it, the words apart. -/
theorem blank :
    r₀.state.blank.AtRest ∧
      Run State.step anyStep r₀.state.blank (h₁.map Event.blank) r₁.state.blank ∧
      WrittenRange align t (r₁.state.txn id) addr (n * align) seg start stop (fun _ => 0)
        (h₁.map Event.blank) (g₁.map Event.blank) r₁.state.blank r₂.state.blank := by
  have hrest : r₀.state.blank.AtRest := by
    refine ⟨hw.atRest.1, ?_⟩
    intro u
    rw [State.call_map, hw.atRest.2 u]
    rfl
  have hr₁ : Run State.step anyStep r₀.state.blank (h₁.map Event.blank) r₁.state.blank :=
    Run.blank hw.card hrest (fun _ => trivial) .start hw.run
  have hreturns := hw.returns.blank hw.card hrest hr₁
  exact ⟨hrest, hr₁, (writtenRange hrest ⟨hw.aligned.1, hw.aligned.2⟩ hr₁ hw.client hw.range hw.live
    hreturns hw.success).2.2⟩

theorem align_eq : r₁.state.region.align = align := by
  obtain ⟨-, hr₁, -⟩ := hw.blank
  have h₀ : r₀.state.blank.region.Aligned align := ⟨hw.aligned.1, hw.aligned.2⟩
  exact (hr₁.aligned h₀).1

/-- The loop of the `tm_write` stays in its range. -/
theorem inRange (i : ℕ) (hi : ((start + i : ℕ) : ℤ) < stop) :
    inRange seg start n (seg, start + i) := by
  have := inRange_of_lt hw.range hi
  rwa [hw.align_eq, Nat.mul_div_cancel _ hw.pos] at this

/-- The `tm_read` that comes right after it returns, with any `w` for a word `m` whose offset
is not an `int`. -/
theorem reads_after (m : ℕ) (w : W) :
    ∃ g r, r₂.Returns (DualStm.inRange seg start n) seg t (.tmRead t addr (n * align)) g r ∧
      (¬ (align < 2 ^ 31 ∧ (start + m) * align < 2 ^ 31) →
        ∀ {copied g'}, g = .readDone (r₁.state.txn id) seg start copied :: g' →
          ∀ v, (m * align, v) ∈ copied → v = w) := by
  obtain ⟨hrest, hr₁, hwr⟩ := hw.blank
  obtain ⟨c, r, -, -, -, hstill, -⟩ := hw.returns
  exact hwr.reads_after hrest hr₁ hstill hw.pos hw.inRange m w

/-- Reading it back takes offsets that are an `int`. -/
theorem fits [Nontrivial W] (hn : 0 < n)
    (hback : ReadsBack align t (r₁.state.txn id) seg start n addr word g₁ r₁ r₂) :
    align < 2 ^ 31 ∧ (start + (n - 1)) * align < 2 ^ 31 := by
  by_contra hno
  obtain ⟨w, hne⟩ := exists_ne (word (n - 1))
  obtain ⟨g, r, hread, hfound⟩ := hw.reads_after (n - 1) w
  obtain ⟨-, -, hwr⟩ := hw.blank
  obtain ⟨-, g', hg⟩ := hback.same .start (fun _ _ _ => List.not_mem_nil) hwr.inCall.client
    hwr.epoch hread
  refine hne (hfound hno hg (word (n - 1)) ?_).symm
  exact List.mem_map.mpr ⟨n - 1, List.mem_range.mpr (Nat.sub_lt hn Nat.one_pos), rfl⟩

section

variable (hfits : align < 2 ^ 31 ∧ (start + (n - 1)) * align < 2 ^ 31)

include hfits

omit hw in
theorem fits_of_inRange (ℓ : Loc) (hℓ : DualStm.inRange seg start n ℓ) :
    align < 2 ^ 31 ∧ ℓ.2 * align < 2 ^ 31 := by
  obtain ⟨-, hge, hlt⟩ := hℓ
  exact ⟨hfits.1, lt_of_le_of_lt (Nat.mul_le_mul_right align (by omega)) hfits.2⟩

/-- When its offsets are an `int`, all of it is known. -/
theorem written :
    Run State.step anyStep r₀.state h₁ r₁.state ∧ r₁.state.call t = .rest ∧
      (r₁.state.thread t).isRo = false ∧
      WrittenRange align t (r₁.state.txn id) addr (n * align) seg start stop source h₁ g₁ r₁.state
        r₂.state := by
  have hfits : ∀ ℓ, DualStm.inRange seg start n ℓ → _ := fits_of_inRange hfits
  have hr₁ := Run.ofFits hw.card hw.atRest hw.aligned hfits .start hw.run
  exact ⟨hr₁, writtenRange hw.atRest hw.aligned hr₁ hw.client hw.range hw.live
    (hw.returns.ofFits hw.card hw.atRest hw.aligned hfits hr₁) hw.success⟩

/-- **A `tm_write` is read back** if its loop writes as many words as the range has, and each
of them is the word of the buffer that belongs there. -/
theorem readsBack (hcount : ∀ i : ℕ, i < n ↔ ((start + i : ℕ) : ℤ) < stop)
    (hsource : ∀ i < n, source i = word i) :
    ReadsBack align t (r₁.state.txn id) seg start n addr word g₁ r₁ r₂ := by
  obtain ⟨hr₁, hcall, hro, hwr⟩ := hw.written hfits
  have hr₂ := hr₁.trans hwr.run
  have hsound {Q : Discipline (State τ W) (Event τ W)} {g : List (Event τ W)} {r : Raw τ W}
      (hr : Run Raw.step (Raw.except (DualStm.inRange seg start n) Q) r₂ g r) :
      Run State.step Q r₂.state g r.state :=
    Run.ofFits hw.card hw.atRest hw.aligned (fits_of_inRange hfits) hr₂ hr
  refine ⟨fun {g₂ g₃ r₃ r₄} hr hno hin hep hread => ?_,
    fun {ℓ v v' g₂ r₃} hout hv hr hk hno => ?_,
    fun {i v g₂ r₃ T'} hi hr hlt hE hno hU hT' => ?_⟩
  · have hr := hsound hr
    obtain ⟨s₃', hs₃, hr₃, hcall₄⟩ := hread.ofFits hw.card hw.atRest hw.aligned
      (fits_of_inRange hfits) (hr₂.trans hr.any)
    have hsame := Run.sameSegment (fun _ _ _ h => h) hr
    have hc : InCall r₃.state t (r₁.state.txn id).id .rest := ⟨hin, call_of_tmRead hs₃⟩
    have hs₃' := step_tmRead (range_sameSegment hsame hwr.range) hc
    rw [hs₃] at hs₃'
    obtain ⟨rfl, -⟩ := Prod.mk.inj (Option.some.inj hs₃')
    cases hwr.readLoop hw.atRest hr₁ hr (fun i hi => hno i ((hcount i).mpr hi)) hc hep hr₃ with
    | running _ hc' =>
      rw [hc'.call] at hcall₄
      cases hcall₄
    | @done k g' _ hc' hg' hk =>
      obtain rfl : n = k := le_antisymm
        (not_lt.mp fun hlt => lt_irrefl k ((hk k).mpr ((hcount k).mp hlt)))
        (not_lt.mp fun hlt => lt_irrefl n ((hcount n).mpr ((hk n).mp hlt)))
      refine ⟨hc'.client, g', ?_⟩
      rw [hg', copied, copied, List.map_congr_left fun i hi => ?_]
      rw [hsource i (List.mem_range.mp hi)]
  · obtain ⟨s₃, a, hr, hs, -⟩ := (hsound hr).last
    refine hwr.others hw.atRest hr₁ rfl hw.client hcall hro ?_ hv hr hk hno hs
    intro i hi hlt
    rw [hi] at hout
    exact hout (hw.inRange i hlt)
  · obtain ⟨s₃, a, hr, hs, -⟩ := (hsound hr).last
    rw [← hsource i hi]
    exact hwr.later hw.atRest hr₁ ((hcount i).mp hi) hr hs hlt hE hno hU hT'

/-- **A `tm_write` is read back only if** its loop writes as many words as the range has, and
each of them is the word of the buffer that belongs there. -/
theorem of_readsBack
    (hback : ReadsBack align t (r₁.state.txn id) seg start n addr word g₁ r₁ r₂) :
    (∀ i : ℕ, i < n ↔ ((start + i : ℕ) : ℤ) < stop) ∧ ∀ i < n, source i = word i := by
  obtain ⟨hr₁, hcall, hro, hwr⟩ := hw.written hfits
  have hr₂ := hr₁.trans hwr.run
  obtain ⟨g₃, r₃, hread, -⟩ := hw.reads_after 0 0
  obtain ⟨s₃, hs, hr₃, hcall₃⟩ := hread.ofFits hw.card hw.atRest hw.aligned
    (fits_of_inRange hfits) hr₂
  rw [step_tmRead hwr.range hwr.inCall] at hs
  obtain ⟨rfl, -⟩ := Prod.mk.inj (Option.some.inj hs)
  obtain ⟨-, g, hg⟩ := hback.same .start (fun _ _ _ => List.not_mem_nil) hwr.inCall.client
    hwr.epoch hread
  cases hwr.readLoop hw.atRest hr₁ .start (fun _ _ _ => List.not_mem_nil) hwr.inCall hwr.epoch
    hr₃ with
  | running _ hc =>
    rw [hc.call] at hcall₃
    cases hcall₃
  | @done k g' _ _ hg' hk =>
    rw [hg] at hg'
    obtain ⟨hcopied, -⟩ := List.cons.inj hg'
    injection hcopied with _ _ _ hcopied
    obtain rfl : n = k := by
      have := congrArg List.length hcopied
      simpa [copied] using this
    refine ⟨hk, ?_⟩
    intro i hi
    have := List.map_inj_left.mp hcopied i (List.mem_range.mpr hi)
    exact (Prod.mk.inj this).2.symm

end

end WriteReturned

end

/-! ## Buffers of bytes

The buffers of the source are bytes. The word of the buffer that belongs at a place of the
range begins `align` bytes after the one before it, and the loop goes on by one byte. -/

theorem toInt32_lt (k : ℤ) : toInt32 k < 2 ^ 31 := by
  rw [toInt32, Int.bmod_def]
  split <;> omega

/-- The loop covers the range if its bound is an `int`. -/
theorem covers_iff {start n : ℕ} (hn : 0 < n) :
    (∀ i : ℕ, i < n ↔ ((start + i : ℕ) : ℤ) < toInt32 (start + toInt32 n)) ↔
      start + n < 2 ^ 31 := by
  constructor
  · intro h
    have hlast := (h (n - 1)).mp (by omega)
    have := toInt32_lt (start + toInt32 n)
    omega
  · intro h i
    have hsum : toInt32 (start + toInt32 n) = ((start + n : ℕ) : ℤ) := by
      rw [toInt32_of_lt (k := n) (by omega), ← Nat.cast_add, toInt32_of_lt h]
    rw [hsum]
    omega

section

variable [Fintype τ] {align : ℕ} {r₀ r₁ r₂ : Raw τ (Fin align → UInt8)}
  {h₁ g₁ : List (Event τ (Fin align → UInt8))}

end

/-- A region of two words of two bytes, and no pointers yet. -/
def byteRaw : Raw Bool (Fin 2 → UInt8) where
  state :=
    { region := tmCreate 4 2 (fun _ => initSegment 2 0) fun _ => false
      gate := restGate
      thread := fun _ => ⟨false, .rest⟩ }
  array := 0
  pointer := fun _ => 0

/-- What happens while nothing is left open. -/
def byteCalm : Chance (Fin 2 → UInt8) := ⟨false, false, none, 0, byteRaw.state.region⟩

/-- A buffer of the bytes 0, 1, 2 and so on. -/
def counting (k : ℕ) : UInt8 := UInt8.ofNat k

/-- A `tm_write` of one or two words of it, by a transaction of its own. -/
theorem writeReturned_bytes {n : ℕ} (hn : n = 1 ∨ n = 2) :
    ∃ h₁ r₁ g₁ r₂,
      WriteReturned 2 true 0 0 0 n getVirtStartAddr n (wordsOf counting) byteRaw h₁ r₁ g₁ r₂ := by
  have hrest : byteRaw.state.AtRest := ⟨⟨rfl, fun _ => rfl⟩, fun _ => rfl⟩
  rcases hn with rfl | rfl
  · exact ⟨_, _, _, _, by decide, by decide, hrest, tmCreate_aligned ..,
      .of_execUnder_eq [(byteCalm, .tmBegin true false), (byteCalm, .enter true),
        (byteCalm, .setFlag true)] .start rfl,
      rfl, by decide, ⟨by decide, rfl⟩,
      ⟨byteCalm, _, rfl, by decide,
        .of_execUnder_eq (List.replicate 2 (byteCalm, .word true)) .start rfl, by decide, rfl⟩, rfl⟩
  · exact ⟨_, _, _, _, by decide, by decide, hrest, tmCreate_aligned ..,
      .of_execUnder_eq [(byteCalm, .tmBegin true false), (byteCalm, .enter true),
        (byteCalm, .setFlag true)] .start rfl,
      rfl, by decide, ⟨by decide, rfl⟩,
      ⟨byteCalm, _, rfl, by decide,
        .of_execUnder_eq (List.replicate 3 (byteCalm, .word true)) .start rfl, by decide, rfl⟩, rfl⟩

end DualStm
