import DualStm.Conservation

/-!
# One thread of a transaction

A thread inside a transaction is moved by its own steps only. `CallStep` is the
control flow of the library as that thread sees it: in a `Call`, an event leads
to the next `Call`, or out of the transaction. `Step.thread_cases` cuts the
steps of the system into those of one thread and those it does not notice.
-/

namespace DualStm

variable {τ W : Type}

/-- The transaction an event belongs to. -/
def Event.txn? : Event τ W → Option Txn
  | .began _ T => some T
  | .read T _ _ => some T
  | .wrote T _ _ => some T
  | .refused T _ => some T
  | .released T _ => some T
  | .readDone T _ _ _ => some T
  | .writeDone T _ _ => some T
  | .alloced T _ => some T
  | .freed T _ => some T
  | .freeRefused T _ => some T
  | .ended T _ => some T
  | .aborted T _ => some T
  | _ => none

/-- What the thread with id `id` does next in a call, and where that leads. -/
inductive CallStep (s : State τ W) (id : ℕ) : Call W → Event τ W → Option (Call W) → Prop where
  | flagged : CallStep s id .beginning .silent (some .rest)
  | reading {source size seg start : ℕ} {stop : ℤ}
      (hrange : s.range source size = some (seg, start, stop)) :
    CallStep s id .rest .silent (some (.reading seg start start stop 0 []))
  | writing {source : ℕ → W} {size target seg start : ℕ} {stop : ℤ}
      (hrange : s.range target size = some (seg, start, stop)) :
    CallStep s id .rest .silent (some (.writing seg start start stop source 0))
  | read {seg start idx off : ℕ} {stop : ℤ} {target : List (ℕ × W)} {v : W}
      (hidx : (idx : ℤ) < stop)
      (hv : (readWord (s.region.segments seg) id (s.region.isRoFlags id) idx).1 = some v) :
    CallStep s id (.reading seg start idx stop off target) (.read (s.txn id) (seg, idx) v)
      (some (.reading seg start (idx + 1) stop (off + (s.region.segments seg).align)
        (target ++ [(off, v)])))
  | readRefused {seg start idx off : ℕ} {stop : ℤ} {target : List (ℕ × W)}
      (hidx : (idx : ℤ) < stop)
      (hv : (readWord (s.region.segments seg) id (s.region.isRoFlags id) idx).1 = none) :
    CallStep s id (.reading seg start idx stop off target) (.refused (s.txn id) (seg, idx))
      (some (.aborting 0 0))
  | readDone {seg start idx off : ℕ} {stop : ℤ} {target : List (ℕ × W)}
      (hidx : ¬ (idx : ℤ) < stop) :
    CallStep s id (.reading seg start idx stop off target)
      (.readDone (s.txn id) seg start target) (some .rest)
  | wrote {seg start idx off : ℕ} {stop : ℤ} {source : ℕ → W} {segment' : Segment W}
      (hidx : (idx : ℤ) < stop)
      (hw : writeWord (s.region.segments seg) id idx (source off) = some segment') :
    CallStep s id (.writing seg start idx stop source off)
      (.wrote (s.txn id) (seg, idx) (source off))
      (some (.writing seg start (idx + 1) stop source (off + 1)))
  | writeRefused {seg start idx off : ℕ} {stop : ℤ} {source : ℕ → W} (hidx : (idx : ℤ) < stop)
      (hw : writeWord (s.region.segments seg) id idx (source off) = none) :
    CallStep s id (.writing seg start idx stop source off) (.refused (s.txn id) (seg, idx))
      (some (.aborting 0 0))
  | writeDone {seg start idx off : ℕ} {stop : ℤ} {source : ℕ → W} (hidx : ¬ (idx : ℤ) < stop) :
    CallStep s id (.writing seg start idx stop source off) (.writeDone (s.txn id) seg start)
      (some .rest)
  | alloced {k : ℕ} : CallStep s id .rest (.alloced (s.txn id) k) (some .rest)
  | freed {k : ℕ} : CallStep s id .rest (.freed (s.txn id) k) (some .rest)
  | freeRefused {k : ℕ} : CallStep s id .rest (.freeRefused (s.txn id) k) (some (.aborting 0 0))
  | released {i j : ℕ} :
    CallStep s id (.aborting i j) (.released (s.txn id) (i, j)) (some (.aborting i (j + 1)))
  | undone {i j : ℕ} : CallStep s id (.aborting i j) .silent (some (.aborting (i + 1) 0))
  | ended {last : Bool} : CallStep s id .rest (.ended (s.txn id) last) none
  | aborted {i j : ℕ} {last : Bool} :
    CallStep s id (.aborting i j) (.aborted (s.txn id) last) none

variable [DecidableEq τ]

/-- The thread is in its transaction, at a point of the library. -/
structure InCall (s : State τ W) (t : τ) (id : ℕ) (c : Call W) : Prop where
  /-- the thread is inside with this id -/
  client : s.client t = .inside id
  /-- the thread is at this point of the library -/
  call : s.call t = c

variable [Zero W] [Fintype τ] {s s' : State τ W} {e : Event τ W}

/-- What a step is to a thread inside: one of another transaction, one of its own, or its
leave. -/
def ThreadMove (s s' : State τ W) (e : Event τ W) (t : τ) (id : ℕ) (c : Call W) : Prop :=
  (InCall s' t id c ∧ s'.epoch = s.epoch ∧ e.txn? ≠ some (s.txn id)) ∨
    (∃ c', CallStep s id c e (some c') ∧ InCall s' t id c' ∧ s'.epoch = s.epoch) ∨
    CallStep s id c e none ∧ s'.client t = .outside ∧ s'.call t = .rest

namespace InCall

variable {t u : τ} {id k : ℕ} {c c₁ c₂ : Call W}

omit [Zero W] [Fintype τ] [DecidableEq τ] in
/-- A thread that is not inside is another one. -/
theorem ne (hc : InCall s t id c) (hu : ∀ k, s.client u ≠ .inside k) : t ≠ u := by
  rintro rfl
  exact hu _ hc.client

omit [Zero W] [DecidableEq τ] in
/-- A thread `u` goes on to `c₂` in its own transaction. -/
theorem move (hc : InCall s t id c) (hg : GateInv s.gate) (hu : s.client u = .inside k)
    (hcall : s.call u = c₁) (htxn : e.txn? = some (s.txn k) ∨ e.txn? = none)
    (hgate : s'.gate = s.gate) (hself : s'.call u = c₂)
    (hother : ∀ v, v ≠ u → s'.call v = s.call v) (hstep : CallStep s k c₁ e (some c₂)) :
    ThreadMove s s' e t id c := by
  have hclient : s'.client t = .inside id := by
    rw [State.client, hgate]
    exact hc.client
  have hep : s'.epoch = s.epoch := by rw [State.epoch, hgate]
  obtain rfl | hut := eq_or_ne t u
  · obtain rfl : k = id := by
      have := hu.symm.trans hc.client
      injection this
    obtain rfl : c₁ = c := hcall.symm.trans hc.call
    exact .inr (.inl ⟨c₂, hstep, ⟨hclient, hself⟩, hep⟩)
  · refine .inl ⟨⟨hclient, (hother t hut).trans hc.call⟩, hep, ?_⟩
    rcases htxn with htxn | htxn
    · rw [htxn]
      intro heq
      injection heq with heq
      injection heq with _ heq
      exact hut (hg.id_inj hc.client (heq ▸ hu))
    · rw [htxn]
      simp

omit [Zero W] in
theorem setCall {r : Region W} (hc : InCall s t id c) (hg : GateInv s.gate)
    (hu : s.client u = .inside k) (hcall : s.call u = c₁)
    (htxn : e.txn? = some (s.txn k) ∨ e.txn? = none) (hstep : CallStep s k c₁ e (some c₂)) :
    ThreadMove s ((s.setRegion r).setCall u c₂) e t id c := by
  refine hc.move hg hu hcall htxn rfl (State.setCall_call_self ..) ?_ hstep
  intro v hv
  rw [State.setCall_call, if_neg hv]
  rfl

omit [Zero W] in
/-- Another thread that takes an id leaves a thread inside in its call. -/
theorem letIn {b : Batcher} (hc : InCall s t id c) (hg : GateInv s.gate)
    (hu : ∀ k, s.client u ≠ .inside k) (hb : b.curEpoch = s.epoch) :
    InCall (s.setGate (Gate.letIn b s.gate.client u)) t id c ∧
      (s.setGate (Gate.letIn b s.gate.client u)).epoch = s.epoch ∧
      (Event.began u (s.txn s.gate.batcher.txIdGenerator) : Event τ W).txn? ≠
        some (s.txn id) := by
  refine ⟨⟨?_, hc.call⟩, hb, ?_⟩
  · rw [← hc.client]
    exact Function.update_of_ne (hc.ne hu) _ _
  · intro heq
    injection heq with heq
    injection heq with _ heq
    exact (hg.id_lt hc.client).ne heq.symm

omit [Zero W] in
/-- A thread that leaves makes one move of its own, and the others inside stay in their calls. -/
theorem leave {fin last : Bool} (hc : InCall s t id c) (hg : GateInv s.gate)
    (hu : s.client u = .inside k)
    (hr : if fin = true then s.call u = .rest else
      ∃ i j, s.call u = .aborting i j ∧ ¬ i < s.region.nSegments)
    (hth : s'.thread = (s.setCall u .rest).thread) (hgate : s'.gate = s.gate.afterLeave u) :
    ThreadMove s s' (if fin = true then .ended (s.txn k) last else .aborted (s.txn k) last)
      t id c := by
  obtain rfl | hut := eq_or_ne t u
  · obtain rfl : k = id := by
      have := hu.symm.trans hc.client
      injection this
    refine .inr (.inr ⟨?_, ?_, ?_⟩)
    · rw [← hc.call]
      cases fin
      · obtain ⟨i, j, hr, -⟩ := hr
        rw [hr]
        exact .aborted
      · rw [show s.call t = .rest from hr]
        exact .ended
    · rw [State.client, hgate]
      by_cases hn : s.gate.batcher.nRemaining = 1
      · simp [Gate.afterLeave_last hn, Client.wakeUp]
      · simp [Gate.afterLeave_early hn]
    · rw [State.call, hth]
      exact State.setCall_call_self ..
  · obtain ⟨hin, hep⟩ := hg.afterLeave_inside hu hut hc.client
    refine .inl ⟨⟨by rw [State.client, hgate]; exact hin, ?_⟩, ?_, ?_⟩
    · rw [State.call, hth, State.setCall_thread_ne _ _ _ _ hut]
      exact hc.call
    · rw [State.epoch, hgate]
      exact hep
    · intro heq
      have heq : s.txn k = s.txn id := by
        cases fin <;> injection heq
      injection heq with _ heq
      exact hut (hg.id_inj hc.client (heq ▸ hu))

end InCall

/-- **The steps of a thread inside.** A step is one of its own, or it leaves the
thread where it is and belongs to another transaction, in the same epoch. -/
theorem Step.thread_cases (hs : Step s e s') (hg : GateInv s.gate) {t : τ} {id : ℕ} {c : Call W}
    (hc : InCall s t id c) : ThreadMove s s' e t id c := by
  cases hs with
  | @called u isRo hcu hr =>
    have htu := hc.ne fun k => by rw [hcu]; simp
    refine .inl ⟨⟨hc.client, ?_⟩, rfl, by simp [Event.txn?]⟩
    simp only [State.call, Function.update_of_ne htu]
    exact hc.call
  | opened hcu hr hn => exact .inl (hc.letIn hg (fun k => by rw [hcu]; simp) rfl)
  | woke hcu => exact .inl (hc.letIn hg (fun k => by rw [hcu]; simp) rfl)
  | @waiting u hcu hr hn =>
    have htu := hc.ne fun k => by rw [hcu]; simp
    refine .inl ⟨⟨?_, hc.call⟩, rfl, by simp [Event.txn?]⟩
    rw [← hc.client]
    exact Function.update_of_ne htu _ _
  | flagged hcu hr => exact hc.setCall hg hcu hr (.inr rfl) .flagged
  | reading hcu hr hrange => exact hc.setCall (r := s.region) hg hcu hr (.inr rfl) (.reading hrange)
  | writing hcu hr hrange hro =>
    exact hc.setCall (r := s.region) hg hcu hr (.inr rfl) (.writing hrange)
  | read hcu hr hidx hv => exact hc.setCall hg hcu hr (.inl rfl) (.read hidx hv)
  | readRefused hcu hr hidx hv => exact hc.setCall hg hcu hr (.inl rfl) (.readRefused hidx hv)
  | readDone hcu hr hidx => exact hc.setCall (r := s.region) hg hcu hr (.inl rfl) (.readDone hidx)
  | wrote hcu hr hidx hw => exact hc.setCall hg hcu hr (.inl rfl) (.wrote hidx hw)
  | writeRefused hcu hr hidx hw =>
    exact hc.setCall (r := s.region) hg hcu hr (.inl rfl) (.writeRefused hidx hw)
  | writeDone hcu hr hidx => exact hc.setCall (r := s.region) hg hcu hr (.inl rfl) (.writeDone hidx)
  | freeRefused hcu hr hro hseg hf =>
    exact hc.setCall (r := s.region) hg hcu hr (.inl rfl) .freeRefused
  | released hcu hr hi hj => exact hc.setCall hg hcu hr (.inl rfl) .released
  | undone hcu hr hi hj => exact hc.setCall hg hcu hr (.inr rfl) .undone
  | alloced hcu hr hro => exact hc.move hg hcu hr (.inl rfl) rfl hr (fun _ _ => rfl) .alloced
  | freed hcu hr hro hseg hf => exact hc.move hg hcu hr (.inl rfl) rfl hr (fun _ _ => rfl) .freed
  | left hcu hr hn => exact hc.leave hg hcu hr rfl rfl
  | closed hcu hr hn hcommit => exact hc.leave hg hcu hr rfl rfl

/-! ## Whose step it is

A step of the library is one thread's. The others keep their calls, and none of them comes in,
leaves or gets another id; at most the blocked ones are woken. -/

/-- The thread that an action is of. -/
def Action.thread : Action τ W → τ
  | .tmBegin t _ => t
  | .enter t => t
  | .wake t => t
  | .setFlag t => t
  | .tmRead t _ _ => t
  | .tmWrite t _ _ _ => t
  | .word t => t
  | .tmAlloc t _ => t
  | .tmFree t _ => t
  | .abort t => t
  | .tmEnd t => t

/-- What the step of a thread `t` is to the others, and whose events it emits. -/
structure MovesAlone (s : State τ W) (t : τ) (e : Event τ W) (s' : State τ W) : Prop where
  /-- the others stay where they are -/
  thread : ∀ u, u ≠ t → s'.thread u = s.thread u
  /-- the others stay where they are in the gate, or are woken by a broadcast -/
  client : ∀ u, u ≠ t → s'.client u = s.client u ∨ s'.client u = (s.client u).wakeUp
  /-- the event is about the thread's own transaction -/
  txn : ∀ {T}, e.txn? = some T → T.epoch = s.epoch ∧
    (s.client t = .inside T.id ∨ T.id = s.gate.batcher.txIdGenerator)

omit [Zero W] [Fintype τ] in
theorem movesAlone_setCall {t : τ} {r : Region W} {c : Call W} {id : ℕ}
    (hc : s.client t = .inside id) (he : e.txn? = some (s.txn id) ∨ e.txn? = none) :
    MovesAlone s t e ((s.setRegion r).setCall t c) := by
  refine ⟨fun u hu => State.setCall_thread_ne _ _ _ _ hu, fun _ _ => .inl rfl, fun {T} hT => ?_⟩
  rcases he with he | he
  · obtain rfl := Option.some.inj (he.symm.trans hT)
    exact ⟨rfl, .inl hc⟩
  · rw [he] at hT
    cases hT

omit [Zero W] [Fintype τ] in
theorem movesAlone_leave {t : τ} {event : Txn → Bool → Event τ W}
    (hev : ∀ T b, (event T b).txn? = some T) (hs : s.leave t event = some (s', e)) :
    MovesAlone s t e s' := by
  have hclient : ∀ u, u ≠ t → (s.gate.afterLeave t).client u = s.client u ∨
      (s.gate.afterLeave t).client u = (s.client u).wakeUp := by
    intro u hu
    simp only [Gate.afterLeave, Function.update_of_ne hu]
    split
    · exact .inr rfl
    · exact .inl rfl
  rw [State.leave] at hs
  split at hs
  · rename_i id hc
    simp only at hs
    split at hs
    · obtain ⟨r, -, he⟩ := Option.map_eq_some_iff.mp hs
      obtain ⟨rfl, rfl⟩ := Prod.mk.inj he
      refine ⟨fun u hu => State.setCall_thread_ne _ _ _ _ hu, hclient, fun {T} hT => ?_⟩
      obtain rfl := Option.some.inj ((hev _ _).symm.trans hT)
      exact ⟨rfl, .inl hc⟩
    · obtain ⟨rfl, rfl⟩ := Prod.mk.inj (Option.some.inj hs)
      refine ⟨fun u hu => State.setCall_thread_ne _ _ _ _ hu, hclient, fun {T} hT => ?_⟩
      obtain rfl := Option.some.inj ((hev _ _).symm.trans hT)
      exact ⟨rfl, .inl hc⟩
  · cases hs

omit [Zero W] [Fintype τ] in
theorem movesAlone_letIn {t : τ} {b : Batcher} :
    MovesAlone s t (.began t (s.txn s.gate.batcher.txIdGenerator))
      (s.setGate (Gate.letIn b s.gate.client t)) := by
  refine ⟨fun _ _ => rfl, fun u hu => .inl (Function.update_of_ne hu _ _), fun {T} hT => ?_⟩
  obtain rfl := Option.some.inj hT
  exact ⟨rfl, .inr rfl⟩

omit [DecidableEq τ] [Zero W] [Fintype τ] in
/-- A step that changes the region only. -/
theorem movesAlone_setRegion {t : τ} {r : Region W} {id : ℕ} (hc : s.client t = .inside id)
    (he : e.txn? = some (s.txn id)) : MovesAlone s t e (s.setRegion r) := by
  refine ⟨fun _ _ => rfl, fun _ _ => .inl rfl, fun {T} hT => ?_⟩
  obtain rfl := Option.some.inj (he.symm.trans hT)
  exact ⟨rfl, .inl hc⟩

omit [Zero W] [Fintype τ] in
/-- **A word of a loop** changes the region and the place of its thread, and the event is one
of its transaction. -/
theorem word_eq {t : τ} {id : ℕ} (hs : s.word t id = some (s', e)) :
    (∃ r c, s' = (s.setRegion r).setCall t c) ∧ e.txn? = some (s.txn id) := by
  rw [State.word] at hs
  split at hs
  · simp only at hs
    split at hs
    · split at hs
      · obtain ⟨rfl, rfl⟩ := Prod.mk.inj (Option.some.inj hs)
        exact ⟨⟨_, _, rfl⟩, rfl⟩
      · obtain ⟨rfl, rfl⟩ := Prod.mk.inj (Option.some.inj hs)
        exact ⟨⟨_, _, rfl⟩, rfl⟩
    · obtain ⟨rfl, rfl⟩ := Prod.mk.inj (Option.some.inj hs)
      exact ⟨⟨s.region, _, rfl⟩, rfl⟩
  · simp only at hs
    split at hs
    · split at hs
      · obtain ⟨rfl, rfl⟩ := Prod.mk.inj (Option.some.inj hs)
        exact ⟨⟨_, _, rfl⟩, rfl⟩
      · obtain ⟨rfl, rfl⟩ := Prod.mk.inj (Option.some.inj hs)
        exact ⟨⟨s.region, _, rfl⟩, rfl⟩
    · obtain ⟨rfl, rfl⟩ := Prod.mk.inj (Option.some.inj hs)
      exact ⟨⟨s.region, _, rfl⟩, rfl⟩
  · cases hs

omit [Fintype τ] in
theorem movesAlone_enter {t : τ} (hs : s.step (.enter t) = some (s', e)) :
    MovesAlone s t e s' := by
  simp only [State.step, enterBatcher] at hs
  split at hs
  · by_cases hn : s.gate.batcher.nRemaining = 0
    · simp only [if_pos hn] at hs
      obtain ⟨rfl, rfl⟩ := Prod.mk.inj (Option.some.inj hs)
      exact movesAlone_letIn
    · simp only [if_neg hn] at hs
      obtain ⟨rfl, rfl⟩ := Prod.mk.inj (Option.some.inj hs)
      exact ⟨fun _ _ => rfl, fun u hu => .inl (Function.update_of_ne hu _ _), by rintro T ⟨⟩⟩
  · cases hs

omit [Fintype τ] in
theorem movesAlone_tmFree {t : τ} {target : ℕ} (hs : s.step (.tmFree t target) = some (s', e)) :
    MovesAlone s t e s' := by
  simp only [State.step] at hs
  split at hs
  · rename_i hc _ _
    split at hs
    · split at hs
      · obtain ⟨rfl, rfl⟩ := Prod.mk.inj (Option.some.inj hs)
        exact movesAlone_setRegion hc rfl
      · obtain ⟨rfl, rfl⟩ := Prod.mk.inj (Option.some.inj hs)
        exact movesAlone_setCall (r := s.region) hc (.inl rfl)
    · cases hs
  · cases hs

omit [Zero W] [Fintype τ] in
theorem movesAlone_abort {t : τ} {id i j : ℕ} (hc : s.client t = .inside id)
    (hs : s.abort t id i j = some (s', e)) : MovesAlone s t e s' := by
  rw [State.abort] at hs
  split at hs
  · simp only at hs
    split at hs
    · obtain ⟨rfl, rfl⟩ := Prod.mk.inj (Option.some.inj hs)
      exact movesAlone_setCall hc (.inl rfl)
    · obtain ⟨rfl, rfl⟩ := Prod.mk.inj (Option.some.inj hs)
      exact movesAlone_setCall hc (.inr rfl)
  · exact movesAlone_leave (fun _ _ => rfl) hs

omit [Fintype τ] in
/-- **A step is the step of one thread.** -/
theorem step_movesAlone {a : Action τ W} (hs : s.step a = some (s', e)) :
    MovesAlone s a.thread e s' := by
  cases a with
  | tmBegin t isRo =>
    simp only [State.step] at hs
    split at hs
    · obtain ⟨rfl, rfl⟩ := Prod.mk.inj (Option.some.inj hs)
      exact ⟨fun u hu => Function.update_of_ne hu _ _, fun _ _ => .inl rfl, by rintro T ⟨⟩⟩
    · cases hs
  | enter t => exact movesAlone_enter hs
  | wake t =>
    simp only [State.step] at hs
    split at hs
    · obtain ⟨rfl, rfl⟩ := Prod.mk.inj (Option.some.inj hs)
      exact movesAlone_letIn
    · cases hs
  | setFlag t =>
    simp only [State.step] at hs
    split at hs
    · rename_i hc _
      obtain ⟨rfl, rfl⟩ := Prod.mk.inj (Option.some.inj hs)
      exact movesAlone_setCall hc (.inr rfl)
    · cases hs
  | tmRead t source size =>
    simp only [State.step] at hs
    split at hs
    · rename_i hc _ _
      obtain ⟨rfl, rfl⟩ := Prod.mk.inj (Option.some.inj hs)
      exact movesAlone_setCall (r := s.region) hc (.inr rfl)
    · cases hs
  | tmWrite t source size target =>
    simp only [State.step] at hs
    split at hs
    · rename_i hc _ _ _
      obtain ⟨rfl, rfl⟩ := Prod.mk.inj (Option.some.inj hs)
      exact movesAlone_setCall (r := s.region) hc (.inr rfl)
    · cases hs
  | word t =>
    simp only [State.step] at hs
    split at hs
    · rename_i id hc
      obtain ⟨⟨r, c, rfl⟩, htxn⟩ := word_eq hs
      exact movesAlone_setCall hc (.inl htxn)
    · cases hs
  | tmAlloc t size =>
    simp only [State.step] at hs
    split at hs
    · rename_i hc _ _
      obtain ⟨rfl, rfl⟩ := Prod.mk.inj (Option.some.inj hs)
      exact movesAlone_setRegion hc rfl
    · cases hs
  | tmFree t target => exact movesAlone_tmFree hs
  | abort t =>
    simp only [State.step] at hs
    split at hs
    · rename_i hc _
      exact movesAlone_abort hc hs
    · cases hs
  | tmEnd t =>
    simp only [State.step] at hs
    split at hs
    · exact movesAlone_leave (fun _ _ => rfl) hs
    · cases hs

/-- **The others, inside.** A thread inside a transaction does not notice the step of
another one. -/
theorem MovesAlone.inCall {t u : τ} {id : ℕ} {c : Call W} (hm : MovesAlone s t e s')
    (hs : Step s e s') (hg : GateInv s.gate) (hu : u ≠ t) (hc : InCall s u id c) :
    InCall s' u id c ∧ s'.epoch = s.epoch ∧ e.txn? ≠ some (s.txn id) := by
  have htxn : e.txn? ≠ some (s.txn id) := by
    intro heq
    rcases (hm.txn heq).2 with hin | hgen
    · exact hu (hg.id_inj hc.client hin)
    · exact (hg.id_lt hc.client).ne hgen
  have hcall : s'.call u = c := by
    rw [State.call, hm.thread u hu]
    exact hc.call
  rcases hs.thread_cases hg hc with h | ⟨c', -, hc', hep⟩ | ⟨hstep, -⟩
  · exact h
  · exact ⟨⟨hc'.client, hcall⟩, hep, htxn⟩
  · cases hstep
    all_goals exact absurd rfl htxn

omit [DecidableEq τ] [Zero W] [Fintype τ] in
/-- A thread that is not inside stays so. -/
theorem MovesAlone.not_inside {t u : τ} (hm : MovesAlone s t e s') (hu : u ≠ t)
    (hc : ∀ id, s.client u ≠ .inside id) (id : ℕ) : s'.client u ≠ .inside id := by
  rcases hm.client u hu with h | h
  · rw [h]
    exact hc id
  · rw [h]
    exact fun hin => hc id (Client.wakeUp_eq_inside.mp hin)

end DualStm
