import DualStm.System

/-!
# The library does not look at words

The words of a region are of any type, and nothing that the library decides depends on
one: a function `f` on words that keeps the zero word takes every step to a step
(`State.step_map`). What the calls, the control entries and the batcher do can therefore be
seen with all words replaced by zero.
-/

namespace DualStm

variable {τ W V : Type} (f : W → V)

/-! ## Segments and regions

A region whose words go through `f` has the same controls, marks and sizes. Every function of
`Region` and `Segment` commutes with this. -/

/-- A segment with its words replaced. -/
def Segment.map (seg : Segment W) : Segment V :=
  { control := seg.control
    wordsArrayA := fun j => f (seg.wordsArrayA j)
    wordsArrayB := fun j => f (seg.wordsArrayB j)
    nWords := seg.nWords
    align := seg.align
    deregistered := seg.deregistered }

/-- A region with its words replaced by their images. -/
def Region.map (region : Region W) : Region V :=
  { nSegments := region.nSegments
    segments := fun i => (region.segments i).map f
    align := region.align
    segSize := region.segSize
    isRoFlags := region.isRoFlags
    freeSegIndices := region.freeSegIndices }

section

variable (seg : Segment W) (region : Region W) (tx j i : ℕ) (v : W)

@[simp] theorem Segment.map_control : (seg.map f).control = seg.control := rfl

@[simp] theorem Segment.map_deregistered : (seg.map f).deregistered = seg.deregistered := rfl

@[simp] theorem Region.map_segments : (region.map f).segments i = (region.segments i).map f := rfl

@[simp] theorem Region.map_freeSegIndices :
    (region.map f).freeSegIndices = region.freeSegIndices := rfl

theorem readReadOnlyCopy_map : readReadOnlyCopy j (seg.map f) = f (readReadOnlyCopy j seg) := by
  rw [readReadOnlyCopy, readReadOnlyCopy, apply_ite f]
  rfl

theorem readWritableCopy_map : readWritableCopy j (seg.map f) = f (readWritableCopy j seg) := by
  rw [readWritableCopy, readWritableCopy, apply_ite f]
  rfl

theorem setControl_map (c : Control) :
    (seg.map f).setControl j c = (seg.setControl j c).map f := rfl

theorem writeToCorrectCopy_map :
    writeToCorrectCopy j (f v) (seg.map f) = (writeToCorrectCopy j v seg).map f := by
  have hset : ∀ words : ℕ → W, (Function.update (fun k => f (words k)) j (f v) : ℕ → V) =
      fun k => f (Function.update words j v k) := fun words =>
    funext fun k => (Function.apply_update (fun _ => f) words j v k).symm
  rw [writeToCorrectCopy, writeToCorrectCopy, apply_ite (Segment.map f)]
  simp only [Segment.map, hset]

/-- What `read_word` does to the control entry does not depend on the word. -/
theorem readWord_map (ro : Bool) : readWord (seg.map f) tx ro j =
    ((readWord seg tx ro j).1.map f, (readWord seg tx ro j).2.map f) := by
  simp only [readWord, Segment.map_control, setControl_map]
  by_cases hfirst : (seg.control j).accessSet = NONE
  · simp only [hfirst, if_true, readReadOnlyCopy_map, readWritableCopy_map]
    split_ifs <;> rfl
  · simp only [hfirst, if_false, readReadOnlyCopy_map, readWritableCopy_map]
    split_ifs <;> rfl

theorem writeWord_map :
    writeWord (seg.map f) tx j (f v) = (writeWord seg tx j v).map (Segment.map f) := by
  simp only [writeWord, Segment.map_control, setControl_map, writeToCorrectCopy_map]
  split
  · split <;> rfl
  · split <;> rfl

theorem releaseWord_map : releaseWord (seg.map f) tx j = (releaseWord seg tx j).map f := by
  unfold releaseWord
  rw [apply_ite (Segment.map f)]
  rfl

theorem initSegment_map [Zero W] [Zero V] (hf : f 0 = 0) (align size : ℕ) :
    (initSegment align size : Segment V) = (initSegment align size : Segment W).map f := by
  simp only [initSegment, Segment.map, hf]

theorem setSegment_map :
    (region.map f).setSegment i (seg.map f) = (region.setSegment i seg).map f := by
  simp only [Region.setSegment, Region.map, Region.mk.injEq, true_and, and_true]
  funext k
  exact (Function.apply_update (fun _ => Segment.map f) region.segments i seg k).symm

theorem tmAlloc_map [Zero W] [Zero V] (hf : f 0 = 0) (size : ℕ) :
    tmAlloc (region.map f) size = ((tmAlloc region size).1, (tmAlloc region size).2.map f) := by
  unfold tmAlloc addSegment
  simp only [initSegment_map f hf]
  simp only [Region.map_freeSegIndices]
  split <;> rw [← setSegment_map] <;> rfl

theorem tmFree_map : tmFree (region.map f) tx i = (tmFree region tx i).map (Region.map f) := by
  simp only [tmFree, apply_ite (Option.map (Region.map f)), Option.map_some, ← setSegment_map]
  rfl

theorem undoFree_map : undoFree (region.map f) tx i = (undoFree region tx i).map f := by
  unfold undoFree
  rw [apply_ite (Region.map f), ← setSegment_map]
  rfl

theorem commitStep_map :
    commitStep (region.map f) i = (commitStep region i).map (Region.map f) := by
  simp only [commitStep, apply_ite (Option.map (Region.map f)), Option.map_some, ← setSegment_map,
    Option.map_map]
  rfl

/-- The commit selects copies, it does not read them. -/
theorem commitTranscationsInEpoch_map : commitTranscationsInEpoch (region.map f) =
    (commitTranscationsInEpoch region).map (Region.map f) := by
  have hfold : ∀ (l : List ℕ) (region : Region W), l.foldlM commitStep (region.map f) =
      (l.foldlM commitStep region).map (Region.map f) := by
    intro l
    induction l with
    | nil => exact fun _ => rfl
    | cons i l ih =>
      intro region
      rw [List.foldlM_cons, List.foldlM_cons, commitStep_map]
      cases hc : commitStep region i with
      | none => rfl
      | some region' => exact ih region'
  exact hfold _ region

end

/-! ## The system

What a step does depends on no word of the memory, so a state with other words does the same
step and ends in the state with other words. -/

/-- A call with the words of its buffer replaced by their images. -/
def Call.map : Call W → Call V
  | .rest => .rest
  | .beginning => .beginning
  | .reading seg start idx stop off target =>
    .reading seg start idx stop off (target.map fun p => (p.1, f p.2))
  | .writing seg start idx stop source off =>
    .writing seg start idx stop (fun k => f (source k)) off
  | .aborting i j => .aborting i j

/-- A thread with the words of its call replaced by their images. -/
def Thread.map (thread : Thread W) : Thread V := ⟨thread.isRo, thread.call.map f⟩

/-- A state with its words replaced by their images. -/
def State.map (s : State τ W) : State τ V where
  region := s.region.map f
  gate := s.gate
  thread := fun t => (s.thread t).map f

/-- An action with its words replaced. -/
def Action.map : Action τ W → Action τ V
  | .tmBegin t isRo => .tmBegin t isRo
  | .enter t => .enter t
  | .wake t => .wake t
  | .setFlag t => .setFlag t
  | .tmRead t source size => .tmRead t source size
  | .tmWrite t source size target => .tmWrite t (fun k => f (source k)) size target
  | .word t => .word t
  | .tmAlloc t size => .tmAlloc t size
  | .tmFree t target => .tmFree t target
  | .abort t => .abort t
  | .tmEnd t => .tmEnd t

/-- An event with its word replaced by its image. -/
def Event.map : Event τ W → Event τ V
  | .called t isRo => .called t isRo
  | .waiting t => .waiting t
  | .began t T => .began t T
  | .read T ℓ v => .read T ℓ (f v)
  | .wrote T ℓ v => .wrote T ℓ (f v)
  | .refused T ℓ => .refused T ℓ
  | .released T ℓ => .released T ℓ
  | .readDone T seg start target => .readDone T seg start (target.map fun p => (p.1, f p.2))
  | .writeDone T seg start => .writeDone T seg start
  | .alloced T seg => .alloced T seg
  | .freed T seg => .freed T seg
  | .freeRefused T seg => .freeRefused T seg
  | .ended T last => .ended T last
  | .aborted T last => .aborted T last
  | .silent => .silent

/-- What a step leads to, with its words replaced. -/
def mapStep (p : State τ W × Event τ W) : State τ V × Event τ V := (p.1.map f, p.2.map f)

namespace State

section

variable [DecidableEq τ] (s : State τ W) (t : τ)

omit [DecidableEq τ] in
theorem setRegion_map (region : Region W) :
    (s.map f).setRegion (region.map f) = (s.setRegion region).map f := rfl

omit [DecidableEq τ] in
theorem setGate_map (g : Gate τ) : (s.map f).setGate g = (s.setGate g).map f := rfl

omit [DecidableEq τ] in
theorem call_map : (s.map f).call t = (s.call t).map f := rfl

theorem setCall_map (c : Call W) : (s.map f).setCall t (c.map f) = (s.setCall t c).map f := by
  simp only [setCall, State.map, State.mk.injEq, true_and]
  funext u
  obtain rfl | hu := eq_or_ne u t
  · simp only [Function.update_self]
    rfl
  · simp only [Function.update_of_ne hu]

/-- The event of a leave is told by its constructor. -/
theorem leave_map (event : Txn → Bool → Event τ W) (event' : Txn → Bool → Event τ V)
    (he : ∀ T last, event' T last = (event T last).map f) :
    (s.map f).leave t event' = (s.leave t event).map (mapStep f) := by
  have hrest := s.setCall_map f t .rest
  unfold leave
  simp only [show (s.map f).client t = s.client t from rfl,
    show (s.map f).gate = s.gate from rfl, show (s.map f).region = s.region.map f from rfl,
    commitTranscationsInEpoch_map, he]
  split
  · rename_i id hc
    rw [apply_ite (Option.map (mapStep f)), Option.map_map, Option.map_map]
    simp only [Function.comp_def, mapStep, ← setRegion_map, ← setGate_map, ← hrest, Option.map_some]
    rfl
  · rfl

omit [DecidableEq τ] in
theorem range_map (addr size : ℕ) : (s.map f).range addr size = s.range addr size := rfl

theorem word_map (id : ℕ) : (s.map f).word t id = (s.word t id).map (mapStep f) := by
  unfold word
  rw [call_map]
  cases hr : s.call t with
  | reading seg start idx stop off target =>
    have hread := readWord_map f (s.region.segments seg) id idx (s.region.isRoFlags id)
    simp only [Call.map]
    rw [show (s.map f).region.segments seg = (s.region.segments seg).map f from rfl,
      show (s.map f).region.isRoFlags = s.region.isRoFlags from rfl, hread]
    split
    · rcases hv : readWord (s.region.segments seg) id (s.region.isRoFlags id) idx with
        ⟨_ | v, segment'⟩
      · simp only [Option.map_none, Option.map_some, mapStep, Event.map, ← setCall_map, Call.map,
          ← setRegion_map, ← setSegment_map]
        rfl
      · simp only [Option.map_some, mapStep, Event.map, ← setCall_map, Call.map,
          ← setRegion_map, ← setSegment_map, List.map_append, List.map_cons, List.map_nil]
        rfl
    · simp only [Option.map_some, mapStep, Event.map, ← setCall_map, Call.map]
      rfl
  | writing seg start idx stop source off =>
    simp only [Call.map]
    rw [show (s.map f).region.segments seg = (s.region.segments seg).map f from rfl, writeWord_map]
    split
    · cases hw : writeWord (s.region.segments seg) id idx (source off) with
      | none =>
        simp only [Option.map_none, Option.map_some, mapStep, Event.map, ← setCall_map, Call.map]
        rfl
      | some segment' =>
        simp only [Option.map_some, mapStep, Event.map, ← setCall_map, Call.map,
          ← setRegion_map, ← setSegment_map]
        rfl
    · simp only [Option.map_some, mapStep, Event.map, ← setCall_map, Call.map]
      rfl
  | _ => rfl

theorem abort_map (id i j : ℕ) :
    (s.map f).abort t id i j = (s.abort t id i j).map (mapStep f) := by
  simp only [abort, apply_ite (Option.map (mapStep f)), Option.map_some,
    ← leave_map f s t .aborted .aborted fun _ _ => rfl, mapStep,
    ← setCall_map, ← setRegion_map, ← setSegment_map, ← releaseWord_map, ← undoFree_map]
  rfl

end

/-! ### The actions

What an action matches on is the same in both states: the place of its thread, its mode and
the range it is about. One lemma for each action that has more to it than that. -/

section

variable [DecidableEq τ] [Zero W] [Zero V] (s : State τ W) (t : τ)

omit [DecidableEq τ] [Zero W] [Zero V] in
theorem client_map : (s.map f).client t = s.client t := rfl

omit [DecidableEq τ] [Zero W] [Zero V] in
theorem isRo_map : ((s.map f).thread t).isRo = (s.thread t).isRo := rfl

theorem step_tmBegin_map (isRo : Bool) :
    (s.map f).step (.tmBegin t isRo) = (s.step (.tmBegin t isRo)).map (mapStep f) := by
  simp only [step, client_map, call_map]
  cases s.client t with
  | outside =>
    cases s.call t with
    | rest =>
      simp only [Call.map, Option.map_some, mapStep, State.map, Option.some.injEq, Prod.mk.injEq,
        State.mk.injEq, true_and, Event.map, and_true]
      funext u
      exact (Function.apply_update (fun _ => Thread.map f) s.thread t ⟨isRo, .beginning⟩ u).symm
    | _ => rfl
  | _ => rfl

theorem step_enter_map : (s.map f).step (.enter t) = (s.step (.enter t)).map (mapStep f) := by
  simp only [step, client_map, call_map]
  cases s.client t with
  | outside =>
    cases s.call t with
    | beginning =>
      simp only [Call.map, show (s.map f).gate = s.gate from rfl]
      split <;> rfl
    | _ => rfl
  | _ => rfl

theorem step_setFlag_map :
    (s.map f).step (.setFlag t) = (s.step (.setFlag t)).map (mapStep f) := by
  simp only [step, client_map, call_map]
  cases s.client t with
  | inside id =>
    cases s.call t with
    | beginning =>
      simp only [Call.map, Option.map_some, mapStep, Event.map, ← setCall_map]
      rfl
    | _ => rfl
  | _ => rfl

theorem step_tmRead_map (source size : ℕ) :
    (s.map f).step (.tmRead t source size) = (s.step (.tmRead t source size)).map (mapStep f) := by
  simp only [step, client_map, call_map]
  rw [range_map]
  cases s.client t with
  | inside id =>
    cases s.call t with
    | rest =>
      cases s.range source size with
      | none => rfl
      | some p =>
        simp only [Call.map, Option.map_some, mapStep, Event.map, ← setCall_map, List.map_nil]
    | _ => rfl
  | _ => rfl

theorem step_tmWrite_map (source : ℕ → W) (size target : ℕ) :
    (s.map f).step (.tmWrite t (fun k => f (source k)) size target) =
      (s.step (.tmWrite t source size target)).map (mapStep f) := by
  simp only [step, client_map, call_map]
  rw [range_map, isRo_map]
  cases s.client t with
  | inside id =>
    cases s.call t with
    | rest =>
      cases s.range target size with
      | none => rfl
      | some p =>
        cases (s.thread t).isRo with
        | true => rfl
        | false => simp only [Call.map, Option.map_some, mapStep, Event.map, ← setCall_map]
    | _ => rfl
  | _ => rfl

theorem step_tmFree_map (target : ℕ) :
    (s.map f).step (.tmFree t target) = (s.step (.tmFree t target)).map (mapStep f) := by
  simp only [step, client_map, call_map, isRo_map,
    show (s.map f).region = s.region.map f from rfl, tmFree_map]
  cases s.client t with
  | inside id =>
    cases s.call t with
    | rest =>
      cases (s.thread t).isRo with
      | true => rfl
      | false =>
        simp only [Call.map, apply_ite (Option.map (mapStep f))]
        cases tmFree s.region id (extractSegIdFromVirtAddr target).toNat with
        | none =>
          simp only [Option.map_none, Option.map_some, mapStep, Event.map, ← setCall_map,
            Call.map]
          rfl
        | some region' => rfl
    | _ => rfl
  | _ => rfl

/-- **A function on words takes the steps of the library to steps of the library.** -/
theorem step_map {f : W → V} (hf : f 0 = 0) (a : Action τ W) :
    (s.map f).step (a.map f) = (s.step a).map (mapStep f) := by
  cases a with
  | tmBegin t isRo => exact s.step_tmBegin_map f t isRo
  | enter t => exact s.step_enter_map f t
  | wake t =>
    simp only [Action.map, step, client_map]
    cases s.client t <;> rfl
  | setFlag t => exact s.step_setFlag_map f t
  | tmRead t source size => exact s.step_tmRead_map f t source size
  | tmWrite t source size target => exact s.step_tmWrite_map f t source size target
  | word t =>
    simp only [Action.map, step, client_map, word_map]
    cases s.client t <;> rfl
  | tmAlloc t size =>
    simp only [Action.map, step, client_map, call_map, isRo_map,
      show (s.map f).region = s.region.map f from rfl, tmAlloc_map f _ hf]
    cases s.client t with
    | inside id =>
      cases s.call t with
      | rest => cases (s.thread t).isRo <;> rfl
      | _ => rfl
    | _ => rfl
  | tmFree t target => exact s.step_tmFree_map f t target
  | abort t =>
    simp only [Action.map, step, client_map, call_map]
    cases s.client t with
    | inside id =>
      cases s.call t with
      | aborting i j => exact abort_map ..
      | _ => rfl
    | _ => rfl
  | tmEnd t =>
    simp only [Action.map, step, call_map]
    cases s.call t with
    | rest => exact leave_map f s t _ _ fun _ _ => rfl
    | _ => rfl

end

end State

end DualStm
