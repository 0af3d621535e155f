import DualStm.Threads

/-!
# What the source leaves open

`State.step` is the library for as long as the source does what it sets out to do: the
loops of `tm_read`, `tm_write` and `abort_transaction_tx` work on the segments of the
region, every access is inside its array, and a wait ends with a broadcast. Nothing in
the source makes sure of that:

* the loops go on through a `segment_t *`, into an array of segments that the `realloc`
  of another thread's `tm_alloc` may have released;
* `is_ro_flags` is indexed by any id, and `vals` by any `top`;
* `align` and the offset `index * align` of a word are an `int`;
* `pthread_cond_wait` stands in no loop.

A `Raw` state says in addition which array the pointer of each thread points into, and a
`Chance` says what happens where the source leaves it open. `Sound` is the condition on a
step, seen from the state before it, under which nothing of the kind does: the runs of
sound steps are runs of `State.step` (`Run.toState`), about which everything else is proved.

Three things are left out on this level too: a `tm_alloc` succeeds; with an `align` that is
no `int` only the bytes of an access are open, while the source also divides by the number
that `align` is converted to; and the accesses of one step are one step, whatever the order
in which a machine makes them visible.
-/

namespace DualStm

variable {τ W : Type}

/-- What the source leaves open in a step. -/
structure Chance (W : Type) where
  /-- `realloc` moves the array of segments -/
  moves : Bool
  /-- a loop takes the address of its segment with its first turn, not before -/
  late : Bool
  /-- what is found in place of a segment in an array that was released; `none` as long
  as it holds what it held -/
  found : Option (Segment W)
  /-- the bytes at an offset that is not one of the array of words -/
  word : W
  /-- the region after a store past the end of one of its arrays -/
  region : Region W

/-- The state of the library with the pointers of the threads. -/
structure Raw (τ W : Type) where
  /-- the region, the batcher and the threads -/
  state : State τ W
  /-- how often the array of segments has been moved -/
  array : ℕ
  /-- the array, by that number, that the `segment_t *` of a thread points into -/
  pointer : τ → ℕ

/-- `align` is an `int`, and so is the offset of the word in its array. -/
def Segment.HasOffset (segment : Segment W) (index : ℕ) : Prop :=
  segment.align < 2 ^ 31 ∧ index * segment.align < 2 ^ 31

instance (segment : Segment W) (index : ℕ) : Decidable (segment.HasOffset index) :=
  inferInstanceAs (Decidable (_ ∧ _))

/-- The call is in a loop that works through a `segment_t *`. -/
def Call.loops : Call W → Bool
  | .reading _ _ _ _ _ _ => true
  | .writing _ _ _ _ _ _ => true
  | .aborting _ _ => true
  | _ => false

/-- A loop has made its first turn through the pointer it has. -/
def Call.midway : Call W → Bool
  | .reading _ start idx _ _ _ => decide (start < idx)
  | .writing _ start idx _ _ _ => decide (start < idx)
  | .aborting _ j => decide (0 < j)
  | _ => false

/-- The word that the loop of `tm_read` or `tm_write` comes to next. -/
def Call.due : Call W → Option Loc
  | .reading seg _ idx stop _ _ => if (idx : ℤ) < stop then some (seg, idx) else none
  | .writing seg _ idx stop _ _ => if (idx : ℤ) < stop then some (seg, idx) else none
  | _ => none

/-- The word that `read_word` or `write_word` was called on. -/
def Event.access? : Event τ W → Option Loc
  | .read _ ℓ _ => some ℓ
  | .wrote _ ℓ _ => some ℓ
  | .refused _ ℓ => some ℓ
  | _ => none

variable [DecidableEq τ] [Zero W]

/-- A step that finds the segment `i` as `seen`, and makes of it what `back` makes of the
segment that the step leaves. -/
def State.through (s : State τ W) (i : ℕ) (seen : Segment W) (back : Segment W → Segment W)
    (a : Action τ W) : Option (State τ W × Event τ W) :=
  ((s.setRegion (s.region.setSegment i seen)).step a).map fun (s', e) =>
    (s'.setRegion (s'.region.setSegment i (back (s'.region.segments i))), e)

namespace Raw

omit [DecidableEq τ] [Zero W] in
/-- The array that the thread goes through in this step. -/
def used (r : Raw τ W) (c : Chance W) (t : τ) : ℕ :=
  if c.late = true ∧ (r.state.call t).midway = false then r.array else r.pointer t

/-- One turn of the loop of `tm_read` or `tm_write`, through the pointer of the thread. What is
stored in an array that was released is lost, and so is what is stored at another offset than
that of the word. -/
def word (r : Raw τ W) (c : Chance W) (t : τ) : Option (State τ W × Event τ W) :=
  match (r.state.call t).due with
  | some (seg, idx) =>
    let segment := r.state.region.segments seg
    match if r.used c t = r.array then none else c.found with
    | some found => r.state.through seg found (fun _ => segment) (.word t)
    | none =>
      -- a `segment_t` that nobody has overwritten still points to the arrays of its segment
      if segment.HasOffset idx then r.state.step (.word t)
      else
        r.state.through seg
          { segment with wordsArrayA := fun _ => c.word, wordsArrayB := fun _ => c.word }
          (fun segment' => { segment' with
            wordsArrayA := segment.wordsArrayA
            wordsArrayB := segment.wordsArrayB })
          (.word t)
  | none => r.state.step (.word t)

/-- `leave_batcher`: a `push` of its commit that has no room writes past the end of `vals`. -/
def leave (r : Raw τ W) (c : Chance W) (t : τ) (event : Txn → Bool → Event τ W) :
    Option (State τ W × Event τ W) :=
  match r.state.client t with
  | .inside id =>
    if (leaveBatcher r.state.gate.batcher).2 = true ∧
        (commitTranscationsInEpoch r.state.region).isNone = true then
      some (((r.state.setCall t .rest).setGate (r.state.gate.afterLeave t)).setRegion c.region,
        event (r.state.txn id) true)
    else r.state.leave t event
  | _ => none

/-- One turn of the loops of `abort_transaction_tx`. The mark of a segment is in the
`segment_t` itself, its words are not. -/
def abort (r : Raw τ W) (c : Chance W) (t : τ) : Option (State τ W × Event τ W) :=
  match r.state.call t with
  | .aborting i j =>
    if i < r.state.region.nSegments then
      let segment := r.state.region.segments i
      if r.used c t = r.array ∨ c.found.isNone = true ∧ j < segment.nWords then
        r.state.step (.abort t)
      else r.state.through i (c.found.getD segment) (fun _ => segment) (.abort t)
    else r.leave c t .aborted
  | _ => none

/-- What a step makes of the state of the library. -/
def effect (r : Raw τ W) (c : Chance W) : Action τ W → Option (State τ W × Event τ W)
  | .wake t =>
    match r.state.client t with
    | .blocked _ =>
      -- the wait returns although nobody has called `pthread_cond_broadcast`
      some (r.state.setGate (Gate.letIn r.state.gate.batcher r.state.gate.client t),
        .began t (r.state.txn (takeId r.state.gate.batcher).1))
    | _ => r.state.step (.wake t)
  | .setFlag t =>
    match r.state.client t with
    | .inside id =>
      if id < MAX_NUM_SEGMENTS then r.state.step (.setFlag t)
      else (r.state.setRegion c.region).step (.setFlag t)
    | _ => none
  | .word t => r.word c t
  | .abort t => r.abort c t
  | .tmEnd t =>
    match r.state.call t with
    | .rest => r.leave c t .ended
    | _ => none
  | a => r.state.step a

omit [DecidableEq τ] [Zero W] in
/-- `allocate_more_segments` moves the array: from the segment `N_INIT_SEGMENTS` on a
`tm_alloc` that finds no free index calls `realloc`. -/
def moves (r : Raw τ W) (c : Chance W) : Action τ W → Bool
  | .tmAlloc _ _ => c.moves && r.state.region.freeSegIndices.vals.isEmpty &&
      decide (N_INIT_SEGMENTS ≤ r.state.region.nSegments + 1)
  | _ => false

omit [Zero W] in
/-- Where the pointers are after a step that leads to `s'`. The thread keeps its own as long
as it is in the midst of a segment, and takes a new one otherwise. -/
def after (r : Raw τ W) (c : Chance W) (a : Action τ W) (s' : State τ W) : Raw τ W where
  state := s'
  array := if r.moves c a = true then r.array + 1 else r.array
  pointer := Function.update r.pointer a.thread
    (if (s'.call a.thread).midway = true then r.used c a.thread else r.array)

omit [Zero W] in
@[simp] theorem after_state (r : Raw τ W) (c : Chance W) (a : Action τ W) (s' : State τ W) :
    (r.after c a s').state = s' := rfl

/-- The transition function: what a step makes of the state, and of the pointers. -/
def step (r : Raw τ W) : Chance W × Action τ W → Option (Raw τ W × Event τ W)
  | (c, a) => (r.effect c a).map fun (s', e) => (r.after c a s', e)

/-! ## Sound steps

A step is sound if what the source leaves open is not met in it. This is said of the state
before the step and of what happens in it, without the function that the step computes. -/

omit [DecidableEq τ] [Zero W] in
/-- No thread is in a loop whose `segment_t *` points into an array that was released: no
`tm_alloc` has moved the array of segments under it. -/
def Still (r : Raw τ W) : Prop := ∀ t, (r.state.call t).loops = true → r.pointer t = r.array

instance [Fintype τ] (r : Raw τ W) : Decidable r.Still := Fintype.decidableForallFintype

omit [DecidableEq τ] [Zero W] in
/-- The access, if the step makes one, is at an offset that is an `int`. -/
def Fits (r : Raw τ W) (e : Event τ W) : Prop :=
  ∀ ℓ, e.access? = some ℓ → (r.state.region.segments ℓ.1).HasOffset ℓ.2

instance (r : Raw τ W) (e : Event τ W) : Decidable (r.Fits e) :=
  decidable_of_iff (∀ ℓ ∈ e.access?, (r.state.region.segments ℓ.1).HasOffset ℓ.2) Iff.rfl

omit [DecidableEq τ] [Zero W] in
/-- A wait, if the step ends one, ends after a broadcast. -/
def Broadcast (r : Raw τ W) (e : Event τ W) : Prop :=
  ∀ t T, e = .began t T → (r.state.client t).isBlocked = false

instance (r : Raw τ W) (e : Event τ W) : Decidable (r.Broadcast e) :=
  match e with
  | .began t T => decidable_of_iff ((r.state.client t).isBlocked = false)
      ⟨by rintro h _ _ ⟨⟩; exact h, fun h => h t T rfl⟩
  | .called _ _ | .waiting _ | .read _ _ _ | .wrote _ _ _ | .refused _ _ | .released _ _
  | .readDone _ _ _ _ | .writeDone _ _ _ | .alloced _ _ | .freed _ _ | .freeRefused _ _
  | .ended _ _ | .aborted _ _ | .silent => .isTrue (by rintro _ _ ⟨⟩)

/-- The step is what the source sets out to do. -/
structure Sound (r : Raw τ W) (e : Event τ W) : Prop where
  /-- no pointer dangles -/
  still : r.Still
  /-- no offset goes astray -/
  fits : r.Fits e
  /-- no wait ends by itself -/
  broadcast : r.Broadcast e

instance [Fintype τ] (r : Raw τ W) (e : Event τ W) : Decidable (r.Sound e) :=
  decidable_of_iff (r.Still ∧ r.Fits e ∧ r.Broadcast e)
    ⟨fun h => ⟨h.1, h.2.1, h.2.2⟩, fun h => ⟨h.still, h.fits, h.broadcast⟩⟩

/-- Sound steps that meet a discipline of the library. -/
def under (Q : Discipline (State τ W) (Event τ W)) : Discipline (Raw τ W) (Event τ W) :=
  fun h r e => r.Sound e ∧ Q h r.state e

instance [Fintype τ] (Q : Discipline (State τ W) (Event τ W)) [∀ h s e, Decidable (Q h s e)]
    (h : List (Event τ W)) (r : Raw τ W) (e : Event τ W) : Decidable (under Q h r e) :=
  inferInstanceAs (Decidable (_ ∧ _))

omit [Zero W] in
/-- The runs under a discipline in which the array of segments may be moved at any time. -/
def underMoves (Q : Discipline (State τ W) (Event τ W)) : Discipline (Raw τ W) (Event τ W) :=
  fun h r e => (r.Fits e ∧ r.Broadcast e) ∧ Q h r.state e

instance (Q : Discipline (State τ W) (Event τ W)) [∀ h s e, Decidable (Q h s e)]
    (h : List (Event τ W)) (r : Raw τ W) (e : Event τ W) : Decidable (underMoves Q h r e) :=
  inferInstanceAs (Decidable (_ ∧ _))

end Raw

/-- The commit that ends an epoch has room on the stack for what it pushes. -/
def hasRoom : Discipline (State τ W) (Event τ W) := fun _ s e =>
  e.closes → ∃ r, commitTranscationsInEpoch s.region = some r

omit [DecidableEq τ] [Zero W] in
instance (e : Event τ W) : Decidable e.closes :=
  decidable_of_iff (∃ p ∈ e.left?, p.2 = true) (by
    simp [Event.closes])

instance (h : List (Event τ W)) (s : State τ W) (e : Event τ W) : Decidable (hasRoom h s e) :=
  decidable_of_iff (e.closes → (commitTranscationsInEpoch s.region).isSome = true) (by
    simp [hasRoom, Option.isSome_iff_exists])

/-! ## A sound step is a step of the library

Under a sound step the pointer of the loop is into the array that is there and the offset is
that of the word. So the step does what `State.step` does. -/

section

variable {s s' : State τ W} {e : Event τ W} {t : τ} {ℓ : Loc}

/-- The turn of a loop that comes to a word is an access to it, whatever it finds there. -/
theorem access_of_word (hdue : (s.call t).due = some ℓ)
    (hs : s.step (.word t) = some (s', e)) : e.access? = some ℓ := by
  simp only [State.step] at hs
  split at hs
  · rename_i id hc
    unfold State.word at hs
    split at hs
    · rename_i seg start idx stop off target hr
      rw [hr] at hdue
      simp only [Call.due] at hdue
      split at hdue
      · rename_i hidx
        obtain rfl := Option.some.inj hdue
        simp only [if_pos hidx] at hs
        split at hs <;> (obtain ⟨-, rfl⟩ := Prod.mk.inj (Option.some.inj hs); rfl)
      · cases hdue
    · rename_i seg start idx stop source off hr
      rw [hr] at hdue
      simp only [Call.due] at hdue
      split at hdue
      · rename_i hidx
        obtain rfl := Option.some.inj hdue
        simp only [if_pos hidx] at hs
        split at hs <;> (obtain ⟨-, rfl⟩ := Prod.mk.inj (Option.some.inj hs); rfl)
      · cases hdue
    · cases hs
  · cases hs

/-- A step that finds another segment in place of one of the region makes the access that was
due. -/
theorem access_of_through {i : ℕ} {seen : Segment W} {back : Segment W → Segment W}
    (hdue : (s.call t).due = some ℓ) (hs : s.through i seen back (.word t) = some (s', e)) :
    e.access? = some ℓ := by
  obtain ⟨⟨s₁, e₁⟩, hs₁, he⟩ := Option.map_eq_some_iff.mp hs
  obtain ⟨-, rfl⟩ := Prod.mk.inj he
  exact access_of_word (s := s.setRegion (s.region.setSegment i seen)) hdue hs₁

omit [Zero W] in
theorem inside_of_leave {event : Txn → Bool → Event τ W} {p : State τ W × Event τ W}
    (hs : s.leave t event = some p) : ∃ id, s.client t = .inside id := by
  unfold State.leave at hs
  split at hs
  · rename_i id hc
    exact ⟨id, hc⟩
  · cases hs

omit [DecidableEq τ] [Zero W] in
theorem Call.loops_of_due {c : Call W} (hdue : c.due = some ℓ) : c.loops = true := by
  cases c with
  | reading => rfl
  | writing => rfl
  | _ => cases hdue

end

namespace Raw

variable {r r' : Raw τ W} {c : Chance W} {a : Action τ W} {s' : State τ W} {e : Event τ W} {t : τ}

omit [DecidableEq τ] [Zero W] in
theorem Still.used (hstill : r.Still) (hl : (r.state.call t).loops = true) :
    r.used c t = r.array := by
  rw [Raw.used, hstill t hl, ite_self]

/-- Without a dangling pointer and with its offset an `int`, a turn of a word loop is one
of the library. -/
theorem word_eq (hstill : r.Still)
    (hoff : ∀ ℓ, (r.state.call t).due = some ℓ → (r.state.region.segments ℓ.1).HasOffset ℓ.2) :
    r.word c t = r.state.step (.word t) := by
  unfold Raw.word
  split
  · rename_i seg idx hdue
    simp only [if_pos (hstill.used (Call.loops_of_due hdue)), if_pos (hoff _ hdue)]
  · rfl

theorem word_sound (hsound : r.Sound e) (hs : r.word c t = some (s', e)) :
    r.state.step (.word t) = some (s', e) := by
  rw [← hs, eq_comm]
  apply word_eq hsound.still
  intro ℓ hdue
  apply hsound.fits
  obtain ⟨seg, idx⟩ := ℓ
  simp only [Raw.word, hdue, if_pos (hsound.still.used (Call.loops_of_due hdue))] at hs
  split at hs
  · exact access_of_word hdue hs
  · exact access_of_through hdue hs

omit [Zero W] in
theorem leave_sound {event : Txn → Bool → Event τ W} (hev : ∀ T, (event T true).closes)
    (hroom : e.closes → ∃ region, commitTranscationsInEpoch r.state.region = some region)
    (hs : r.leave c t event = some (s', e)) : r.state.leave t event = some (s', e) := by
  unfold Raw.leave at hs
  split at hs
  · rename_i id hc
    split at hs
    · rename_i hover
      obtain ⟨-, rfl⟩ := Prod.mk.inj (Option.some.inj hs)
      obtain ⟨region, hsome⟩ := hroom (hev _)
      rw [hsome] at hover
      cases hover.2
    · exact hs
  · cases hs

/-- Without a dangling pointer and with room for the commit, a turn of the loops of
`abort_transaction_tx` is one of the library. -/
theorem abort_sound (hstill : r.Still)
    (hroom : e.closes → ∃ region, commitTranscationsInEpoch r.state.region = some region)
    (hs : r.abort c t = some (s', e)) : r.state.step (.abort t) = some (s', e) := by
  unfold Raw.abort at hs
  split at hs
  · rename_i i j hr
    split at hs
    · rename_i hi
      rwa [if_pos (.inl (hstill.used (by rw [hr]; rfl)))] at hs
    · rename_i hi
      have hleave := leave_sound (fun T => ⟨T, rfl⟩) hroom hs
      obtain ⟨id, hc⟩ := inside_of_leave hleave
      simp only [State.step, hc, hr, State.abort, if_neg hi]
      exact hleave
  · cases hs

/-- Without a dangling pointer, with room for the commit and with their flags for the ids,
a step other than a turn of a word loop is one of the library. -/
theorem effect_of_ne_word (hstill : r.Still) (hbroadcast : r.Broadcast e)
    (hroom : e.closes → ∃ region, commitTranscationsInEpoch r.state.region = some region)
    (hid : ∀ {t id}, r.state.client t = .inside id → id < MAX_NUM_SEGMENTS)
    (ha : ∀ t, a ≠ .word t) (hs : r.effect c a = some (s', e)) :
    r.state.step a = some (s', e) := by
  cases a with
  | wake t =>
    simp only [effect] at hs
    split at hs
    · rename_i n hc
      obtain ⟨-, rfl⟩ := Prod.mk.inj (Option.some.inj hs)
      have := hbroadcast t _ rfl
      rw [hc] at this
      cases this
    · exact hs
  | setFlag t =>
    simp only [effect] at hs
    split at hs
    · rename_i id hc
      rwa [if_pos (hid hc)] at hs
    · cases hs
  | word t => exact absurd rfl (ha t)
  | abort t => exact abort_sound hstill hroom hs
  | tmEnd t =>
    simp only [effect] at hs
    split at hs
    · rename_i hr
      simp only [State.step, hr]
      exact leave_sound (fun T => ⟨T, rfl⟩) hroom hs
    · cases hs
  | _ => exact hs

/-- **A sound step is a step of the library**, if its commit has room and the ids have
their flags. -/
theorem effect_sound (hsound : r.Sound e)
    (hroom : e.closes → ∃ region, commitTranscationsInEpoch r.state.region = some region)
    (hid : ∀ {t id}, r.state.client t = .inside id → id < MAX_NUM_SEGMENTS)
    (hs : r.effect c a = some (s', e)) : r.state.step a = some (s', e) := by
  by_cases ha : ∃ t, a = .word t
  · obtain ⟨t, rfl⟩ := ha
    exact word_sound hsound hs
  · exact effect_of_ne_word hsound.still hsound.broadcast hroom hid (not_exists.mp ha) hs

theorem step_sound (hsound : r.Sound e)
    (hroom : e.closes → ∃ region, commitTranscationsInEpoch r.state.region = some region)
    (hid : ∀ {t id}, r.state.client t = .inside id → id < MAX_NUM_SEGMENTS)
    (hs : r.step (c, a) = some (r', e)) : r.state.step a = some (r'.state, e) := by
  obtain ⟨⟨s', e'⟩, heffect, he⟩ := Option.map_eq_some_iff.mp hs
  obtain ⟨rfl, rfl⟩ := Prod.mk.inj he
  exact effect_sound hsound hroom hid heffect

end Raw

/-! ## Runs

The runs of sound steps are runs of `State.step`, as long as every id has its flag and every
commit has room on the stack. -/

section

variable [Fintype τ] {r₀ r : Raw τ W} {h : List (Event τ W)}
  {Q : Discipline (State τ W) (Event τ W)}

omit [Zero W] in
/-- With at most `MAX_NUM_SEGMENTS` threads every id has its flag. -/
theorem Books.id_lt {s : State τ W} (hb : Books h s) (hcard : Fintype.card τ ≤ MAX_NUM_SEGMENTS)
    {t : τ} {id : ℕ} (hc : s.client t = .inside id) : id < MAX_NUM_SEGMENTS := by
  have hlt := hb.gate.id_lt hc
  have hin := hb.gate.inEpoch
  have hcap := hb.capacity
  omega

/-- A sound step after a run of the library. -/
theorem Run.sound {s₀ : State τ W} {r r' : Raw τ W} {c : Chance W} {a : Action τ W}
    {e : Event τ W} (hr : Run State.step Q s₀ h r.state)
    (hcard : Fintype.card τ ≤ MAX_NUM_SEGMENTS) (hrest : s₀.AtRest) (hq : r.Sound e)
    (hroom : hasRoom h r.state e) (hs : r.step (c, a) = some (r', e)) :
    r.state.step a = some (r'.state, e) :=
  Raw.step_sound hq hroom ((Books.run hrest hr).id_lt hcard) hs

/-- **The runs of sound steps are runs of the library**, with at most `MAX_NUM_SEGMENTS`
threads and a discipline under which every commit has room. -/
theorem Run.toState (hcard : Fintype.card τ ≤ MAX_NUM_SEGMENTS) (hrest : r₀.state.AtRest)
    (hroom : ∀ {h s e}, Run State.step Q r₀.state h s → Q h s e → hasRoom h s e)
    (hr : Run Raw.step (Raw.under Q) r₀ h r) : Run State.step Q r₀.state h r.state := by
  induction hr with
  | start => exact .start
  | @next h r r' ca e _ hs hq ih =>
    obtain ⟨c, a⟩ := ca
    exact ih.next (ih.sound hcard hrest hq.1 (hroom ih hq.2) hs) hq.2

end

/-! ## A run in which a pointer dangles

Three threads, of which two run in the second epoch. One of them calls `tm_alloc` until
the array of segments is full, the other one makes a call on the first segment; the next
`tm_alloc` moves the array. -/

/-- A region of two words, and three threads that have not called anything yet. -/
def threeThreads : State (Fin 3) ℕ where
  region := tmCreate 16 8 (fun _ => initSegment 8 0) fun _ => false
  gate := ⟨initBatcher, fun _ => .outside⟩
  thread := fun _ => ⟨false, .rest⟩

/-- The three threads, and no pointers yet. -/
def threeRaw : Raw (Fin 3) ℕ := ⟨threeThreads, 0, fun _ => 0⟩

/-- Two threads at rest, and no pointers yet. -/
def restRaw : Raw Bool ℕ := ⟨restState, 0, fun _ => 0⟩

/-- What happens while nothing is left open. -/
def calm : Chance ℕ := ⟨false, false, none, 0, threeThreads.region⟩

/-- Actions in which nothing is left open. -/
def calmly {τ : Type} (acts : List (Action τ ℕ)) : List (Chance ℕ × Action τ ℕ) :=
  acts.map fun a => (calm, a)

/-- The array is moved, and the one that was released holds another segment. -/
def moved (found : Segment ℕ) : Chance ℕ := ⟨true, false, some found, 0, threeThreads.region⟩

/-- Two threads begin a transaction of the second epoch, the first one, read-only if `isRo`
says so, does what it does, and the second one fills the array of segments. -/
def fillArray (isRo : Bool) (acts : List (Action (Fin 3) ℕ)) :
    List (Chance ℕ × Action (Fin 3) ℕ) :=
  calmly ([.tmBegin 0 false, .enter 0, .tmBegin 1 isRo, .enter 1, .tmBegin 2 false, .enter 2,
    .setFlag 0, .tmEnd 0, .wake 1, .wake 2, .setFlag 1, .setFlag 2] ++ acts ++
    List.replicate 126 (.tmAlloc 2 8))

end DualStm
