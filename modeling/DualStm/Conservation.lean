import DualStm.History
import Mathlib.Data.Set.Card

/-!
# Conservation in the batcher

The counting invariant of the gate, carried to the whole system: every step of
the library either leaves the gate alone or is one of its lock-held sections
(`Step.gateMove`). With it come the bookkeeping of ids (`IdInv`: handed out in
order, never twice in an epoch, and held by the threads inside) and of the
threads (`ThreadInv`: what a thread can be doing given where it stands, and whose
flag `is_ro_flags[tx]` is).
-/

namespace DualStm

variable {τ W : Type} [DecidableEq τ]

/-! ## The gate in the system

Each step of the library does to the gate what one section of `Gate.step` does, or nothing. So
what is known of the gate alone holds in the system. -/

/-- What a step of the library does to the gate, by the event it is seen as. -/
inductive GateMove (g : Gate τ) : Event τ W → Gate τ → Prop where
  /-- nothing -/
  | quiet {e : Event τ W} (hb : e.begun? = none) (hl : e.left? = none) : GateMove g e g
  /-- a thread blocks -/
  | waits {e : Event τ W} {t : τ} (hb : e.begun? = none) (hl : e.left? = none)
      (hc : g.client t = .outside) (hn : g.batcher.nRemaining ≠ 0) :
    GateMove g e (Gate.wait { g.batcher with nBlocked := g.batcher.nBlocked + 1 } g.client t)
  /-- a thread opens an epoch -/
  | opens {t : τ} (hc : g.client t = .outside) (hn : g.batcher.nRemaining = 0) :
    GateMove g (.began t ⟨g.batcher.curEpoch, g.batcher.txIdGenerator⟩)
      (Gate.letIn { g.batcher with nInEpoch := 1, nRemaining := 1 } g.client t)
  /-- a woken thread takes its id -/
  | wakes {t : τ} {since : ℕ} (hc : g.client t = .woken since) :
    GateMove g (.began t ⟨g.batcher.curEpoch, g.batcher.txIdGenerator⟩)
      (Gate.letIn g.batcher g.client t)
  /-- a transaction leaves -/
  | leaves {e : Event τ W} {t : τ} {id : ℕ} (hc : g.client t = .inside id)
      (hb : e.begun? = none)
      (hl : e.left? = some (⟨g.batcher.curEpoch, id⟩, (leaveBatcher g.batcher).2)) :
    GateMove g e (g.afterLeave t)

/-- A step is a lock-held section of the gate, or does not touch it. -/
theorem Step.gateMove [Zero W] {s s' : State τ W} {e : Event τ W} (hs : Step s e s') :
    GateMove s.gate e s'.gate := by
  cases hs with
  | opened hc _ hn => exact .opens hc hn
  | waiting hc _ hn => exact .waits rfl rfl hc hn
  | woke hc => exact .wakes hc
  | @left t id fin hc _ hn =>
    have hlast : (leaveBatcher s.gate.batcher).2 = false :=
      Bool.eq_false_iff.mpr fun hl => hn (leaveBatcher_snd.mp hl)
    cases fin
    · exact .leaves hc rfl (by rw [hlast]; rfl)
    · exact .leaves hc rfl (by rw [hlast]; rfl)
  | @closed t id fin r hc _ hn _ =>
    have hlast : (leaveBatcher s.gate.batcher).2 = true := leaveBatcher_snd.mpr hn
    cases fin
    · exact .leaves hc rfl (by rw [hlast]; rfl)
    · exact .leaves hc rfl (by rw [hlast]; rfl)
  | _ => exact .quiet rfl rfl

/-- What a step of the library does to the gate is nothing or a step of `Gate.step`, and not a
spurious wake-up. -/
theorem GateMove.step {g g' : Gate τ} {e : Event τ W} (hm : GateMove g e g') :
    g' = g ∨ ∃ a ge, g.step a = some (g', ge) ∧ ge.isSpurious = false := by
  cases hm with
  | quiet _ _ => exact .inl rfl
  | @waits _ t _ _ hc hn =>
    refine .inr ⟨.enter t, .waits t, ?_, rfl⟩
    simp only [Gate.step, enterBatcher, if_pos hc, if_neg hn]
  | @opens t hc hn =>
    refine .inr ⟨.enter t, .admitted t g.batcher.txIdGenerator, ?_, rfl⟩
    simp only [Gate.step, enterBatcher, if_pos hc, if_pos hn]
    rfl
  | @wakes t since hc =>
    refine .inr ⟨.wake t, .woke t since g.batcher.curEpoch g.batcher.txIdGenerator, ?_, rfl⟩
    simp only [Gate.step, hc]
    rfl
  | @leaves _ t id hc _ _ =>
    refine .inr ⟨.leave t, .left t id (leaveBatcher g.batcher).2, ?_, rfl⟩
    simp only [Gate.step, hc]

/-- The counts, along every step of the system. -/
theorem gateInv_of_step [Fintype τ] [Zero W] {s s' : State τ W} {e : Event τ W}
    (hs : Step s e s') (hg : GateInv s.gate ∧ BlockedNow s.gate) :
    GateInv s'.gate ∧ BlockedNow s'.gate := by
  rcases hs.gateMove.step with hsame | ⟨a, ge, hstep, hsp⟩
  · rw [hsame]
    exact hg
  · exact ⟨gateInv_step hg.1 hg.2 hstep hsp, blockedNow_step hg.2 hstep⟩

/-! ## The ids

The ids of an epoch are handed out from zero on, so an id names one transaction as long as its
epoch lasts. -/

/-- The bookkeeping of ids: which transactions of the history have which id, and which of them
are inside. -/
structure IdInv (h : List (Event τ W)) (g : Gate τ) : Prop where
  /-- ids of the current epoch come from the generator -/
  begun_lt : ∀ {T}, T ∈ begun h →
    T.epoch < g.batcher.curEpoch ∨
      T.epoch = g.batcher.curEpoch ∧ T.id < g.batcher.txIdGenerator
  /-- who left had begun -/
  begun_of_left : ∀ {T}, HasLeft h T → T ∈ begun h
  /-- the transactions of the past have left -/
  left_of_lt : ∀ {T}, T ∈ begun h → T.epoch < g.batcher.curEpoch → HasLeft h T
  /-- no id is handed out twice in an epoch -/
  nodup : (begun h).Nodup
  /-- a thread holds the id it got until it leaves -/
  holds : ∀ {t id}, g.client t = .inside id ↔
    .began t ⟨g.batcher.curEpoch, id⟩ ∈ h ∧ ¬ HasLeft h ⟨g.batcher.curEpoch, id⟩

section

variable {h : List (Event τ W)} {e : Event τ W} {g g' : Gate τ}

namespace IdInv

omit [DecidableEq τ] in
/-- A step that hands out no id, lets nobody leave and moves no id. -/
theorem quiet (hi : IdInv h g) (hb : e.begun? = none) (hl : e.left? = none)
    (hcur : g'.batcher.curEpoch = g.batcher.curEpoch)
    (hgen : g'.batcher.txIdGenerator = g.batcher.txIdGenerator)
    (hclient : ∀ t id, g'.client t = .inside id ↔ g.client t = .inside id) :
    IdInv (e :: h) g' := by
  refine ⟨?_, ?_, ?_, ?_, ?_⟩
  · rw [begun_cons_of_none hb, hcur, hgen]
    exact hi.begun_lt
  · intro T
    rw [begun_cons_of_none hb, hasLeft_cons_of_none hl]
    exact hi.begun_of_left
  · intro T
    rw [begun_cons_of_none hb, hasLeft_cons_of_none hl, hcur]
    exact hi.left_of_lt
  · rw [begun_cons_of_none hb]
    exact hi.nodup
  · intro t id
    rw [hclient, hcur, began_mem_cons_of_none hb, hasLeft_cons_of_none hl]
    exact hi.holds

/-- The id a thread takes is new in its epoch. -/
theorem letIn (hi : IdInv h g) {b : Batcher} {t : τ}
    (hcur : b.curEpoch = g.batcher.curEpoch) (hgen : b.txIdGenerator = g.batcher.txIdGenerator)
    (hc : ∀ id, g.client t ≠ .inside id) :
    IdInv (.began t ⟨g.batcher.curEpoch, g.batcher.txIdGenerator⟩ :: h)
      (Gate.letIn b g.client t) := by
  set T : Txn := ⟨g.batcher.curEpoch, g.batcher.txIdGenerator⟩ with hT
  have hbegun : begun (.began t T :: h) = T :: begun h := rfl
  have hnew : T ∉ begun h := by
    intro hmem
    rcases hi.begun_lt hmem with hlt | ⟨-, hlt⟩
    · exact absurd hlt (lt_irrefl _)
    · exact absurd hlt (lt_irrefl _)
  have hleft : ∀ {T'}, HasLeft (.began t T :: h) T' ↔ HasLeft h T' :=
    hasLeft_cons_of_none rfl
  refine ⟨?_, ?_, ?_, ?_, ?_⟩
  · intro T' hmem
    simp only [Gate.letIn, takeId, hcur, hgen]
    rw [hbegun, List.mem_cons] at hmem
    rcases hmem with rfl | hmem
    · exact .inr ⟨rfl, Nat.lt_succ_self _⟩
    · rcases hi.begun_lt hmem with hlt | ⟨he, hlt⟩
      · exact .inl hlt
      · exact .inr ⟨he, Nat.lt_succ_of_lt hlt⟩
  · intro T' hl
    rw [hbegun]
    exact List.mem_cons_of_mem _ (hi.begun_of_left (hleft.mp hl))
  · intro T' hmem hlt
    simp only [Gate.letIn, takeId, hcur] at hlt
    rw [hbegun, List.mem_cons] at hmem
    rcases hmem with rfl | hmem
    · exact absurd hlt (lt_irrefl _)
    · exact hleft.mpr (hi.left_of_lt hmem hlt)
  · rw [hbegun]
    exact List.nodup_cons.mpr ⟨hnew, hi.nodup⟩
  · intro u id
    have hcur' : (Gate.letIn b g.client t).batcher.curEpoch = g.batcher.curEpoch := hcur
    rw [hcur', hleft, List.mem_cons]
    obtain rfl | hut := eq_or_ne u t
    · simp only [Gate.letIn, takeId, Function.update_self, hgen, Client.inside.injEq]
      constructor
      · rintro rfl
        exact ⟨.inl rfl, fun hl => hnew (hi.begun_of_left hl)⟩
      · rintro ⟨he | hmem, hl⟩
        · injection he with _ he
          injection he with _ he
          exact he.symm
        · exact absurd (hi.holds.mpr ⟨hmem, hl⟩) (hc _)
    · simp only [Gate.letIn, Function.update_of_ne hut, hi.holds]
      refine and_congr_left fun _ => (or_iff_right ?_).symm
      intro he
      injection he with he _
      exact hut he

/-- A transaction leaves, and with the last one the epoch is over. -/
theorem leave [Fintype τ] (hi : IdInv h g) (hg : GateInv g) {t : τ} {id : ℕ}
    (hc : g.client t = .inside id) (hb : e.begun? = none)
    (hl : e.left? = some (⟨g.batcher.curEpoch, id⟩, (leaveBatcher g.batcher).2)) :
    IdInv (e :: h) (g.afterLeave t) := by
  have hleft : ∀ {T}, HasLeft (e :: h) T ↔
      T = ⟨g.batcher.curEpoch, id⟩ ∨ HasLeft h T := by
    intro T
    rw [hasLeft_cons, hl]
    simp [eq_comm]
  have hbegun : begun (e :: h) = begun h := begun_cons_of_none hb
  have hself : ⟨g.batcher.curEpoch, id⟩ ∈ begun h := mem_begun (hi.holds.mp hc).1
  have hfrom : ∀ {T}, HasLeft (e :: h) T → T ∈ begun (e :: h) := by
    intro T hT
    rw [hbegun]
    rcases hleft.mp hT with rfl | hT
    · exact hself
    · exact hi.begun_of_left hT
  by_cases hn : g.batcher.nRemaining = 1
  · rw [Gate.afterLeave_last hn]
    have halone : ∀ {u}, u ≠ t → ∀ id', g.client u ≠ .inside id' := by
      intro u hut id' hu
      have := (hg.last_alone hc (leaveBatcher_snd.mpr hn) hut).1
      rw [hu] at this
      cases this
    refine ⟨fun {T} hmem => ?_, hfrom, fun {T} hmem hlt => ?_, by rw [hbegun]; exact hi.nodup,
      fun {u id'} => ?_⟩
    · rw [hbegun] at hmem
      left
      simp only [prepareBatcherForNextEpoch]
      rcases hi.begun_lt hmem with hlt | ⟨heq, -⟩
      · exact Nat.lt_succ_of_lt hlt
      · exact heq ▸ Nat.lt_succ_self _
    · -- whoever has not left is still inside, and only `t` is
      rw [hbegun] at hmem
      rw [hleft]
      by_contra hcon
      obtain ⟨hne, hstay⟩ := not_or.mp hcon
      have hcur : T.epoch = g.batcher.curEpoch := by
        rcases hi.begun_lt hmem with hlt' | ⟨heq, -⟩
        · exact absurd (hi.left_of_lt hmem hlt') hstay
        · exact heq
      obtain ⟨u, hu⟩ := exists_began hmem
      obtain ⟨ep, k⟩ := T
      obtain rfl : ep = g.batcher.curEpoch := hcur
      have hin : g.client u = .inside k := hi.holds.mpr ⟨hu, hstay⟩
      obtain rfl | hut := eq_or_ne u t
      · rw [hc] at hin
        injection hin with hin
        exact hne (hin ▸ rfl)
      · exact halone hut k hin
    · simp only [prepareBatcherForNextEpoch]
      constructor
      · intro hu
        rw [Client.wakeUp_eq_inside] at hu
        by_cases hut : u = t
        · rw [hut, Function.update_self] at hu
          cases hu
        · rw [Function.update_of_ne hut] at hu
          exact absurd hu (halone hut id')
      · rintro ⟨hmem, -⟩
        rw [began_mem_cons_of_none hb] at hmem
        rcases hi.begun_lt (mem_begun hmem) with hlt | ⟨heq, -⟩
        · exact absurd hlt (by simp)
        · exact absurd heq (by simp)
  · rw [Gate.afterLeave_early hn]
    refine ⟨fun {T} hmem => hi.begun_lt (hbegun ▸ hmem), hfrom,
      fun {T} hmem hlt => hleft.mpr (.inr (hi.left_of_lt (hbegun ▸ hmem) hlt)),
      by rw [hbegun]; exact hi.nodup, fun {u id'} => ?_⟩
    simp only
    rw [began_mem_cons_of_none hb, hleft, not_or, and_left_comm, ← hi.holds]
    obtain rfl | hut := eq_or_ne u t
    · rw [Function.update_self, hc]
      simp [eq_comm]
    · rw [Function.update_of_ne hut]
      refine (and_iff_right_of_imp ?_).symm
      rintro hu heq
      injection heq with _ heq
      exact hut (hg.id_inj hu (heq ▸ hc))

end IdInv

/-- The bookkeeping of ids, along every step of the gate. -/
theorem idInv_gateMove [Fintype τ] (hi : IdInv h g) (hg : GateInv g)
    (hm : GateMove g e g') : IdInv (e :: h) g' := by
  cases hm with
  | quiet hb hl => exact hi.quiet hb hl rfl rfl fun _ _ => Iff.rfl
  | @waits _ t hb hl hc hn =>
    refine hi.quiet hb hl rfl rfl ?_
    intro u id
    obtain rfl | hut := eq_or_ne u t
    · simp [Gate.wait, hc]
    · simp [Gate.wait, Function.update_of_ne hut]
  | opens hc hn => exact hi.letIn rfl rfl fun id => by rw [hc]; simp
  | wakes hc => exact hi.letIn rfl rfl fun id => by rw [hc]; simp
  | leaves hc hb hl => exact hi.leave hg hc hb hl

omit [DecidableEq τ] in
theorem idInv_of_atRest (hg : g.AtRest) : IdInv ([] : List (Event τ W)) g := by
  refine ⟨by simp [begun], by simp [HasLeft], by simp [begun], by simp [begun], ?_⟩
  intro t id
  rw [hg.2 t]
  simp

end

/-! ## The threads

The history says what a thread has called last, and the thread is in this call. -/

/-- What a thread can be doing, and what is known of its flag. -/
structure ThreadInv (h : List (Event τ W)) (s : State τ W) : Prop where
  /-- a thread outside is at most about to enter -/
  outside : ∀ {t}, s.client t = .outside → s.call t = .rest ∨ s.call t = .beginning
  /-- a blocked thread is inside `tm_begin` -/
  blocked : ∀ {t n}, s.client t = .blocked n → s.call t = .beginning
  /-- a woken thread is still inside `tm_begin` -/
  woken : ∀ {t n}, s.client t = .woken n → s.call t = .beginning
  /-- the flag a thread remembers is the one it passed -/
  called : ∀ {t}, s.client t ≠ .outside ∨ s.call t = .beginning →
    lastCalled t h = some (s.thread t).isRo
  /-- once `tm_begin` has returned, the flag of the id is its holder's -/
  flag : ∀ {t id}, s.client t = .inside id → s.call t ≠ .beginning →
    s.region.isRoFlags id = (s.thread t).isRo

namespace ThreadInv

variable {h : List (Event τ W)} {s : State τ W}

/-- Inside a library function other than `tm_begin`, a thread is in a transaction. -/
theorem inside (hi : ThreadInv h s) {t : τ} (hr : s.call t ≠ .rest)
    (hb : s.call t ≠ .beginning) : ∃ id, s.client t = .inside id := by
  rcases hc : s.client t with _ | n | n | id
  · rcases hi.outside hc with h' | h'
    · exact absurd h' hr
    · exact absurd h' hb
  · exact absurd (hi.blocked hc) hb
  · exact absurd (hi.woken hc) hb
  · exact ⟨id, rfl⟩

/-- A step of one thread inside its transaction, keeping the flags. -/
theorem move (hi : ThreadInv h s) {s' : State τ W} {e : Event τ W} {t : τ} {id : ℕ}
    (hc : s.client t = .inside id) (hr : s.call t ≠ .beginning) (hgate : s'.gate = s.gate)
    (hro : ∀ u, (s'.thread u).isRo = (s.thread u).isRo)
    (hcall : ∀ u, u ≠ t → s'.call u = s.call u)
    (hflags : s'.region.isRoFlags = s.region.isRoFlags)
    (hlast : ∀ u, lastCalled u (e :: h) = lastCalled u h) : ThreadInv (e :: h) s' := by
  have hclient : ∀ u, s'.client u = s.client u := by
    intro u
    rw [State.client, hgate]
  have hne : ∀ {u}, s.client u = .outside ∨ (∃ n, s.client u = .blocked n) ∨
      (∃ n, s.client u = .woken n) → u ≠ t := by
    rintro u hu rfl
    rw [hc] at hu
    simp at hu
  refine ⟨?_, ?_, ?_, ?_, ?_⟩
  · intro u hu
    rw [hclient] at hu
    rw [hcall u (hne (.inl hu))]
    exact hi.outside hu
  · intro u n hu
    rw [hclient] at hu
    rw [hcall u (hne (.inr (.inl ⟨n, hu⟩)))]
    exact hi.blocked hu
  · intro u n hu
    rw [hclient] at hu
    rw [hcall u (hne (.inr (.inr ⟨n, hu⟩)))]
    exact hi.woken hu
  · intro u hu
    rw [hlast, hro]
    obtain rfl | hut := eq_or_ne u t
    · exact hi.called (.inl (by rw [hc]; simp))
    · rw [hclient, hcall u hut] at hu
      exact hi.called hu
  · intro u id' hu hb
    rw [hclient] at hu
    rw [hro, hflags]
    obtain rfl | hut := eq_or_ne u t
    · exact hi.flag hu hr
    · rw [hcall u hut] at hb
      exact hi.flag hu hb

/-- A thread that takes an id keeps the bookkeeping of the threads. -/
theorem letIn (hi : ThreadInv h s) {b : Batcher} {t : τ} {T : Txn}
    (hr : s.call t = .beginning) :
    ThreadInv (.began t T :: h) (s.setGate (Gate.letIn b s.gate.client t)) := by
  have hold : ∀ {u c}, (∀ id, c ≠ .inside id) →
      (s.setGate (Gate.letIn b s.gate.client t)).client u = c → s.client u = c := by
    intro u c hc hu
    obtain rfl | hut := eq_or_ne u t
    · simp only [State.client, State.setGate_gate, Gate.letIn, Function.update_self] at hu
      exact absurd hu.symm (hc _)
    · simpa only [State.client, State.setGate_gate, Gate.letIn,
        Function.update_of_ne hut] using hu
  refine ⟨fun hu => hi.outside (hold (by simp) hu), fun hu => hi.blocked (hold (by simp) hu),
    fun hu => hi.woken (hold (by simp) hu), fun {u} hu => ?_, fun {u id} hu hb => ?_⟩
  · obtain rfl | hut := eq_or_ne u t
    · exact hi.called (.inr hr)
    · apply hi.called
      simpa only [State.client, State.call, State.setGate_gate, State.setGate_thread,
        Gate.letIn, Function.update_of_ne hut] using hu
  · obtain rfl | hut := eq_or_ne u t
    · exact absurd hr hb
    · refine hi.flag ?_ hb
      simpa only [State.client, State.setGate_gate, Gate.letIn,
        Function.update_of_ne hut] using hu

/-- A transaction that leaves keeps the bookkeeping of the threads. -/
theorem leave (hi : ThreadInv h s) {e : Event τ W} {t : τ} {r : Region W}
    (hflags : r.isRoFlags = s.region.isRoFlags)
    (hlast : ∀ u, lastCalled u (e :: h) = lastCalled u h) :
    ThreadInv (e :: h)
      (((s.setCall t .rest).setGate (s.gate.afterLeave t)).setRegion r) := by
  set s' := ((s.setCall t .rest).setGate (s.gate.afterLeave t)).setRegion r
  have hself : s'.client t = .outside ∧ s'.call t = .rest := by
    refine ⟨?_, State.setCall_call_self ..⟩
    by_cases hn : s.gate.batcher.nRemaining = 1
    · simp [s', State.client, Gate.afterLeave_last hn, Client.wakeUp]
    · simp [s', State.client, Gate.afterLeave_early hn]
  have hcall : ∀ {u}, u ≠ t → s'.call u = s.call u := by
    intro u hut
    simp only [s', State.call, State.setRegion_thread, State.setGate_thread,
      State.setCall_thread_ne _ _ _ _ hut]
  have hclient : ∀ {u}, u ≠ t → s'.client u = s.client u ∨
      ∃ n, s.client u = .blocked n ∧ s'.client u = .woken n := by
    intro u hut
    by_cases hn : s.gate.batcher.nRemaining = 1
    · simp only [s', State.client, State.setRegion_gate, State.setGate_gate,
        Gate.afterLeave_last hn, Function.update_of_ne hut]
      rcases s.gate.client u with _ | n | n | n <;> simp [Client.wakeUp]
    · simp [s', State.client, Gate.afterLeave_early hn, Function.update_of_ne hut]
  refine ⟨?_, ?_, ?_, ?_, ?_⟩
  · intro u hu
    obtain rfl | hut := eq_or_ne u t
    · exact .inl hself.2
    · rw [hcall hut]
      rcases hclient hut with h' | ⟨m, -, h'⟩
      · exact hi.outside (h' ▸ hu)
      · rw [h'] at hu
        cases hu
  · intro u n hu
    obtain rfl | hut := eq_or_ne u t
    · rw [hself.1] at hu
      cases hu
    · rw [hcall hut]
      rcases hclient hut with h' | ⟨m, -, h'⟩
      · exact hi.blocked (h' ▸ hu)
      · rw [h'] at hu
        cases hu
  · intro u n hu
    obtain rfl | hut := eq_or_ne u t
    · rw [hself.1] at hu
      cases hu
    · rw [hcall hut]
      rcases hclient hut with h' | ⟨m, hb, -⟩
      · exact hi.woken (h' ▸ hu)
      · exact hi.blocked hb
  · intro u hu
    have hro : (s'.thread u).isRo = (s.thread u).isRo := by
      simp only [s', State.setRegion_thread, State.setGate_thread, State.setCall_isRo]
    rw [hlast, hro]
    obtain rfl | hut := eq_or_ne u t
    · simp [hself] at hu
    · apply hi.called
      rw [hcall hut] at hu
      rcases hclient hut with h' | ⟨m, hb, -⟩
      · rwa [h'] at hu
      · exact .inl (by rw [hb]; simp)
  · intro u id hu hb
    have hro : (s'.thread u).isRo = (s.thread u).isRo := by
      simp only [s', State.setRegion_thread, State.setGate_thread, State.setCall_isRo]
    rw [hro, show s'.region = r from rfl, hflags]
    obtain rfl | hut := eq_or_ne u t
    · rw [hself.1] at hu
      cases hu
    · rw [hcall hut] at hb
      rcases hclient hut with h' | ⟨m, -, h'⟩
      · exact hi.flag (h' ▸ hu) hb
      · rw [h'] at hu
        cases hu

/-- A thread that calls `tm_begin` keeps the bookkeeping of the threads. -/
theorem calls (hi : ThreadInv h s) {t : τ} {isRo : Bool} (hc : s.client t = .outside) :
    ThreadInv (.called t isRo :: h)
      { s with thread := Function.update s.thread t ⟨isRo, .beginning⟩ } := by
  have hthread : ∀ {u}, u ≠ t →
      Function.update s.thread t ⟨isRo, .beginning⟩ u = s.thread u :=
    fun hut => Function.update_of_ne hut _ _
  have hne : ∀ {u c}, s.client u = c → c ≠ .outside → u ≠ t := by
    rintro u c hu hout rfl
    exact hout (hu.symm.trans hc)
  refine ⟨?_, ?_, ?_, ?_, ?_⟩
  · intro u hu
    obtain rfl | hut := eq_or_ne u t
    · exact .inr (by simp [State.call])
    · simp only [State.call, hthread hut]
      exact hi.outside hu
  · intro u n hu
    simp only [State.call, hthread (hne hu (by simp))]
    exact hi.blocked hu
  · intro u n hu
    simp only [State.call, hthread (hne hu (by simp))]
    exact hi.woken hu
  · intro u hu
    obtain rfl | hut := eq_or_ne u t
    · simp [lastCalled]
    · simp only [State.call, hthread hut] at hu ⊢
      rw [lastCalled, if_neg (Ne.symm hut)]
      exact hi.called hu
  · intro u id hu hb
    simp only [State.call, hthread (hne hu (by simp))] at hb ⊢
    exact hi.flag hu hb

/-- A thread that has called `tm_begin` comes to be blocked. -/
theorem wait (hi : ThreadInv h s) {b : Batcher} {t : τ} (hr : s.call t = .beginning) :
    ThreadInv (.waiting t :: h) (s.setGate (Gate.wait b s.gate.client t)) := by
  have hold : ∀ {u c}, (∀ n, c ≠ .blocked n) →
      (s.setGate (Gate.wait b s.gate.client t)).client u = c → s.client u = c := by
    intro u c hne hu
    obtain rfl | hut := eq_or_ne u t
    · simp only [State.client, State.setGate_gate, Gate.wait, Function.update_self] at hu
      exact absurd hu.symm (hne _)
    · simpa only [State.client, State.setGate_gate, Gate.wait,
        Function.update_of_ne hut] using hu
  refine ⟨fun hu => hi.outside (hold (by simp) hu), fun {u n} hu => ?_,
    fun hu => hi.woken (hold (by simp) hu), fun {u} hu => ?_,
    fun hu hb => hi.flag (hold (by simp) hu) hb⟩
  · obtain rfl | hut := eq_or_ne u t
    · exact hr
    · apply hi.blocked (n := n)
      simpa only [State.client, State.setGate_gate, Gate.wait,
        Function.update_of_ne hut] using hu
  · obtain rfl | hut := eq_or_ne u t
    · exact hi.called (.inr hr)
    · apply hi.called
      simpa only [State.client, State.call, State.setGate_gate, State.setGate_thread,
        Gate.wait, Function.update_of_ne hut] using hu

/-- A thread stores the flag of its id. -/
theorem flagged [Fintype τ] (hi : ThreadInv h s) (hg : GateInv s.gate) {t : τ} {id : ℕ}
    (hc : s.client t = .inside id) (hr : s.call t = .beginning) :
    ThreadInv (.silent :: h) ((s.setRegion { s.region with
      isRoFlags := Function.update s.region.isRoFlags id (s.thread t).isRo }).setCall t .rest) := by
  have hne : ∀ {u c}, s.client u = c → (∀ id, c ≠ .inside id) → u ≠ t := by
    rintro u c hu hcid rfl
    exact hcid _ (hu.symm.trans hc)
  refine ⟨?_, ?_, ?_, ?_, ?_⟩
  · intro u hu
    rw [State.setCall_call, if_neg (hne hu (by simp))]
    exact hi.outside hu
  · intro u n hu
    rw [State.setCall_call, if_neg (hne hu (by simp))]
    exact hi.blocked hu
  · intro u n hu
    rw [State.setCall_call, if_neg (hne hu (by simp))]
    exact hi.woken hu
  · intro u hu
    rw [State.setCall_isRo]
    obtain rfl | hut := eq_or_ne u t
    · exact hi.called (.inr hr)
    · rw [State.setCall_call, if_neg hut] at hu
      exact hi.called hu
  · intro u id' hu hb
    rw [State.setCall_isRo, State.setRegion_thread]
    simp only [State.setCall_region, State.setRegion_region]
    obtain rfl | hut := eq_or_ne u t
    · obtain rfl : id = id' := by
        have := hc.symm.trans hu
        simpa using this
      rw [Function.update_self]
    · -- nobody else holds the id whose flag is stored
      rw [State.setCall_call, if_neg hut] at hb
      rw [Function.update_of_ne]
      · exact hi.flag hu hb
      · rintro rfl
        exact hut (hg.id_inj hu hc)

end ThreadInv

theorem isRoFlags_tmAlloc [Zero W] (region : Region W) (size : ℕ) :
    (tmAlloc region size).2.isRoFlags = region.isRoFlags := by
  unfold tmAlloc
  split <;> rfl

theorem isRoFlags_tmFree {region r : Region W} {tx seg : ℕ}
    (hf : tmFree region tx seg = some r) : r.isRoFlags = region.isRoFlags := by
  unfold tmFree at hf
  simp only at hf
  split at hf
  · obtain rfl := Option.some.inj hf
    rfl
  · split at hf
    · cases hf
    · obtain rfl := Option.some.inj hf
      rfl

theorem isRoFlags_undoFree (region : Region W) (tx i : ℕ) :
    (undoFree region tx i).isRoFlags = region.isRoFlags := by
  unfold undoFree
  split <;> rfl

/-- Every step keeps what is known of the threads. -/
theorem threadInv_step [Fintype τ] [Zero W] {h : List (Event τ W)} {s s' : State τ W}
    {e : Event τ W} (hi : ThreadInv h s) (hg : GateInv s.gate) (hs : Step s e s') :
    ThreadInv (e :: h) s' := by
  have hcall : ∀ {t u c} {r : Region W}, u ≠ t →
      ((s.setRegion r).setCall t c).call u = s.call u := by
    intro t u c r hut
    rw [State.call, State.setCall_thread_ne _ _ _ _ hut, State.setRegion_thread]
  have hro : ∀ {t c} {r : Region W} u,
      (((s.setRegion r).setCall t c).thread u).isRo = (s.thread u).isRo :=
    fun u => State.setCall_isRo ..
  cases hs with
  | called hc hr => exact hi.calls hc
  | opened hc hr hn => exact hi.letIn hr
  | waiting hc hr hn => exact hi.wait hr
  | woke hc => exact hi.letIn (hi.woken hc)
  | flagged hc hr => exact hi.flagged hg hc hr
  | reading hc hr _ =>
    exact hi.move hc (by rw [hr]; simp) rfl (hro (r := s.region))
      (fun u hu => hcall (r := s.region) hu) rfl fun _ => rfl
  | writing hc hr _ _ =>
    exact hi.move hc (by rw [hr]; simp) rfl (hro (r := s.region))
      (fun u hu => hcall (r := s.region) hu) rfl fun _ => rfl
  | read hc hr _ _ =>
    exact hi.move hc (by rw [hr]; simp) rfl hro (fun u hu => hcall hu) rfl fun _ => rfl
  | readRefused hc hr _ _ =>
    exact hi.move hc (by rw [hr]; simp) rfl hro (fun u hu => hcall hu) rfl fun _ => rfl
  | readDone hc hr _ =>
    exact hi.move hc (by rw [hr]; simp) rfl (hro (r := s.region))
      (fun u hu => hcall (r := s.region) hu) rfl fun _ => rfl
  | wrote hc hr _ _ =>
    exact hi.move hc (by rw [hr]; simp) rfl hro (fun u hu => hcall hu) rfl fun _ => rfl
  | writeRefused hc hr _ _ =>
    exact hi.move hc (by rw [hr]; simp) rfl (hro (r := s.region))
      (fun u hu => hcall (r := s.region) hu) rfl fun _ => rfl
  | writeDone hc hr _ =>
    exact hi.move hc (by rw [hr]; simp) rfl (hro (r := s.region))
      (fun u hu => hcall (r := s.region) hu) rfl fun _ => rfl
  | alloced hc hr _ =>
    exact hi.move hc (by rw [hr]; simp) rfl (fun _ => rfl) (fun _ _ => rfl)
      (isRoFlags_tmAlloc ..) fun _ => rfl
  | freed hc hr _ _ hf =>
    exact hi.move hc (by rw [hr]; simp) rfl (fun _ => rfl) (fun _ _ => rfl)
      (isRoFlags_tmFree hf) fun _ => rfl
  | freeRefused hc hr _ _ _ =>
    exact hi.move hc (by rw [hr]; simp) rfl (hro (r := s.region))
      (fun u hu => hcall (r := s.region) hu) rfl fun _ => rfl
  | released hc hr _ _ =>
    exact hi.move hc (by rw [hr]; simp) rfl hro (fun u hu => hcall hu) rfl fun _ => rfl
  | undone hc hr _ _ =>
    exact hi.move hc (by rw [hr]; simp) rfl hro (fun u hu => hcall hu)
      (isRoFlags_undoFree ..) fun _ => rfl
  | @left t id fin hc _ _ =>
    exact hi.leave (r := s.region) rfl fun u => by cases fin <;> rfl
  | @closed t id fin r hc _ _ hcommit =>
    exact hi.leave (commitTranscationsInEpoch_spec hcommit).isRoFlags fun u => by
      cases fin <;> rfl

/-! ## The flags

`tm_begin` notes under its id whether the transaction is read-only. Nobody else has the id
before the epoch ends, so the note is true as long as the thread is inside. -/

/-- Only `tm_begin` changes the flag that a thread remembers. -/
theorem Step.isRo [Zero W] {s s' : State τ W} {e : Event τ W} (hs : Step s e s') {t : τ} {id : ℕ}
    (hc : s.client t = .inside id) : (s'.thread t).isRo = (s.thread t).isRo := by
  cases hs with
  | @called u isRo hc' hr =>
    have hne : t ≠ u := by
      rintro rfl
      rw [hc] at hc'
      cases hc'
    simp only [Function.update_of_ne hne]
  | opened => rfl
  | waiting => rfl
  | woke => rfl
  | alloced => rfl
  | freed => rfl
  | _ => exact State.setCall_isRo ..

/-- The flag of the transaction a thread is in is the one it remembers. -/
def FlagInv (h : List (Event τ W)) (s : State τ W) : Prop :=
  ∀ {t id}, s.client t = .inside id → flagOf (s.txn id) h = some (s.thread t).isRo

/-- Every step keeps the flags true for the threads inside. -/
theorem flagInv_step [Fintype τ] [Zero W] {h : List (Event τ W)} {s s' : State τ W}
    {e : Event τ W} (hf : FlagInv h s) (ht : ThreadInv h s) (hg : GateInv s.gate)
    (hs : Step s e s') : FlagInv (e :: h) s' := by
  intro u k hu
  have hkeep : s.client u = .inside k → s'.epoch = s.epoch →
      flagOf (s'.txn k) (e :: h) = flagOf (s.txn k) h →
      flagOf (s'.txn k) (e :: h) = some (s'.thread u).isRo := by
    intro hc hep hfl
    rw [hfl, hs.isRo hc]
    exact hf hc
  have hletIn : ∀ {t : τ} {b : Batcher}, s'.gate = Gate.letIn b s.gate.client t →
      e = .began t (s.txn s.gate.batcher.txIdGenerator) → b.curEpoch = s.epoch →
      b.txIdGenerator = s.gate.batcher.txIdGenerator → s.call t = .beginning →
      s'.thread = s.thread → flagOf (s'.txn k) (e :: h) = some (s'.thread u).isRo := by
    rintro t b hgate rfl hcur hgen hr hth
    have hep : s'.epoch = s.epoch := by
      rw [State.epoch, hgate]
      exact hcur
    rw [State.client, hgate] at hu
    obtain rfl | hut := eq_or_ne u t
    · simp only [Gate.letIn, takeId, Function.update_self, Client.inside.injEq] at hu
      rw [flagOf, if_pos (by rw [State.txn, State.txn, hep, ← hu, hgen]), hth]
      exact ht.called (.inr hr)
    · simp only [Gate.letIn, Function.update_of_ne hut] at hu
      apply hkeep hu hep
      rw [State.txn, hep]
      apply flagOf_began_ne
      intro heq
      injection heq with _ heq
      exact (hg.id_lt hu).ne heq.symm
  have hleave : ∀ {t id}, s.client t = .inside id → s'.gate = s.gate.afterLeave t →
      e.begun? = none → flagOf (s'.txn k) (e :: h) = some (s'.thread u).isRo := by
    intro t id hc hgate hb
    rw [State.client, hgate] at hu
    obtain ⟨-, hu', hep⟩ := hg.inside_of_afterLeave hc hu
    have hep : s'.epoch = s.epoch := by
      rw [State.epoch, hgate]
      exact hep
    apply hkeep hu' hep
    rw [State.txn, hep]
    exact flagOf_cons_of_none hb _
  cases hs with
  | opened hc hr hn => exact hletIn rfl rfl rfl rfl hr rfl
  | woke hc => exact hletIn rfl rfl rfl rfl (ht.woken hc) rfl
  | @waiting t hc hr hn =>
    refine hkeep ?_ rfl rfl
    obtain rfl | hut := eq_or_ne u t
    · simp [State.client, Gate.wait] at hu
    · simpa only [State.client, State.setGate_gate, Gate.wait,
        Function.update_of_ne hut] using hu
  | @left t id fin hc _ _ => exact hleave hc rfl (by cases fin <;> rfl)
  | @closed t id fin r hc _ _ _ => exact hleave hc rfl (by cases fin <;> rfl)
  | _ => exact hkeep hu rfl rfl

/-! ## Runs of the system

The invariants of the gate, the ids, the threads and the flags hold in every state a run from
rest comes to, and `batcher_conservation` reads them off. -/

/-- Nobody has called anything yet: the gate is empty, and no thread is in a call. -/
def State.AtRest (s : State τ W) : Prop := s.gate.AtRest ∧ ∀ t, s.call t = .rest

/-- Everything that holds of the batcher and the threads around it. -/
structure Books [Fintype τ] (h : List (Event τ W)) (s : State τ W) : Prop where
  /-- the counts -/
  gate : GateInv s.gate
  /-- the waiting threads -/
  blocked : BlockedNow s.gate
  /-- the ids -/
  ids : IdInv h s.gate
  /-- the threads -/
  threads : ThreadInv h s
  /-- the flags -/
  flags : FlagInv h s
  /-- an epoch has room for every thread once -/
  capacity : s.gate.batcher.nInEpoch ≤ Fintype.card τ

variable [Fintype τ]

theorem capacity_gateMove {g g' : Gate τ} {e : Event τ W} (hg : GateInv g)
    (hcap : g.batcher.nInEpoch ≤ Fintype.card τ) (hm : GateMove g e g') :
    g'.batcher.nInEpoch ≤ Fintype.card τ := by
  cases hm with
  | quiet _ _ => exact hcap
  | waits _ _ _ _ => exact hcap
  | @opens t _ _ =>
    have hpos : 0 < Fintype.card τ := Fintype.card_pos_iff.mpr ⟨t⟩
    simp only [Gate.letIn, takeId]
    omega
  | wakes _ => exact hcap
  | leaves _ _ _ =>
    by_cases hn : g.batcher.nRemaining = 1
    · have hblk := hg.blocked
      have hle := countOf_le_card Client.isBlocked g.client
      rw [Gate.afterLeave_last hn]
      simp only [prepareBatcherForNextEpoch]
      omega
    · rw [Gate.afterLeave_early hn]
      exact hcap

namespace Books

variable {h : List (Event τ W)} {s : State τ W}

theorem of_atRest (hrest : s.AtRest) : Books [] s := by
  refine ⟨gateInv_of_atRest hrest.1, blockedNow_of_atRest hrest.1, idInv_of_atRest hrest.1,
    ⟨fun {t} _ => .inl (hrest.2 t), fun {t n} hc => ?_, fun {t n} hc => ?_,
      fun {t} hc => ?_, fun {t id} hc _ => ?_⟩, fun {t id} hc => ?_, ?_⟩
  · rw [State.client, hrest.1.2 t] at hc
    cases hc
  · rw [State.client, hrest.1.2 t] at hc
    cases hc
  · rw [State.client, hrest.1.2 t, hrest.2 t] at hc
    simp at hc
  · rw [State.client, hrest.1.2 t] at hc
    cases hc
  · rw [State.client, hrest.1.2 t] at hc
    cases hc
  · rw [hrest.1.1]
    exact Int.natCast_nonneg _

theorem step [Zero W] {s' : State τ W} {e : Event τ W} (hb : Books h s) (hs : Step s e s') :
    Books (e :: h) s' := by
  obtain ⟨hg, hblk⟩ := gateInv_of_step hs ⟨hb.gate, hb.blocked⟩
  exact ⟨hg, hblk, idInv_gateMove hb.ids hb.gate hs.gateMove,
    threadInv_step hb.threads hb.gate hs, flagInv_step hb.flags hb.threads hb.gate hs,
    capacity_gateMove hb.gate hb.capacity hs.gateMove⟩

/-- The books are kept in every reachable state. -/
theorem run [Zero W] {Q : Discipline (State τ W) (Event τ W)} {s₀ : State τ W}
    (hrest : s₀.AtRest) (hr : Run State.step Q s₀ h s) : Books h s := by
  induction hr with
  | start => exact of_atRest hrest
  | next _ hs _ ih => exact ih.step (step_cases hs)

/-- The id of a transaction of the current epoch is not `NONE`. -/
theorem begun_ne_none (hb : Books h s) (hcard : Fintype.card τ ≤ NONE) {T : Txn}
    (hT : T ∈ begun h) (hep : T.epoch = s.epoch) : T.id ≠ NONE := by
  have hlt : T.id < s.gate.batcher.txIdGenerator := by
    rcases hb.ids.begun_lt hT with hlt | ⟨-, hlt⟩
    · exact absurd hep hlt.ne
    · exact hlt
  have hin := hb.gate.inEpoch
  have hcap := hb.capacity
  omega

/-- The id of a thread inside is not `NONE`. -/
theorem id_ne_none (hb : Books h s) (hcard : Fintype.card τ ≤ NONE) {t : τ} {id : ℕ}
    (hc : s.client t = .inside id) : id ≠ NONE :=
  hb.begun_ne_none (T := s.txn id) hcard (mem_begun (hb.ids.holds.mp hc).1) rfl

omit [Fintype τ] [DecidableEq τ] in
/-- The transaction of a thread inside. -/
theorem inside_iff {g : Gate τ} (hi : IdInv h g) {T : Txn} :
    (T ∈ begun h ∧ T.epoch = g.batcher.curEpoch ∧ ¬ HasLeft h T) ↔
      ∃ t, g.client t = .inside T.id ∧ T.epoch = g.batcher.curEpoch := by
  obtain ⟨ep, id⟩ := T
  constructor
  · rintro ⟨hmem, rfl, hstay⟩
    obtain ⟨t, ht⟩ := exists_began hmem
    exact ⟨t, hi.holds.mpr ⟨ht, hstay⟩, rfl⟩
  · rintro ⟨t, hc, rfl⟩
    obtain ⟨ht, hstay⟩ := hi.holds.mp hc
    exact ⟨mem_begun ht, rfl, hstay⟩

/-- The transaction of a thread inside. -/
def txnOf (s : State τ W) (t : τ) : Txn :=
  match s.client t with
  | .inside id => s.txn id
  | _ => s.txn 0

/-- The transactions of the current epoch that have not left are as many as the
threads inside. -/
theorem ncard_running (hb : Books h s) :
    {T : Txn | T ∈ begun h ∧ T.epoch = s.epoch ∧ ¬ HasLeft h T}.ncard =
      countOf Client.isInside s.gate.client := by
  classical
  have hfin {t : τ} {id : ℕ} (hc : s.client t = .inside id) : txnOf s t = s.txn id := by
    simp only [txnOf, hc]
  have himage : {T : Txn | T ∈ begun h ∧ T.epoch = s.epoch ∧ ¬ HasLeft h T} =
      ((Finset.univ.filter fun t => (s.client t).isInside = true).image (txnOf s) :
        Finset Txn) := by
    ext T
    rw [Set.mem_ofPred_eq, inside_iff hb.ids]
    simp only [Finset.coe_image, Finset.coe_filter, Finset.mem_univ, true_and, Set.mem_image,
      Set.mem_ofPred_eq]
    constructor
    · rintro ⟨t, hc, he⟩
      refine ⟨t, by rw [State.client, hc]; rfl, ?_⟩
      rw [hfin hc]
      obtain ⟨ep, id⟩ := T
      obtain rfl : ep = s.epoch := he
      rfl
    · rintro ⟨t, hin, rfl⟩
      rcases hc : s.client t with _ | n | n | id
      · simp [hc] at hin
      · simp [hc] at hin
      · simp [hc] at hin
      · rw [hfin hc]
        exact ⟨t, hc, rfl⟩
  rw [himage, Set.ncard_coe_finset, countOf, Finset.card_image_of_injOn]
  intro t ht u hu htu
  simp only [Finset.coe_filter, Finset.mem_univ, true_and, Set.mem_ofPred_eq] at ht hu
  rcases hct : s.client t with _ | n | n | id <;> simp [hct] at ht
  rcases hcu : s.client u with _ | n | n | id' <;> simp [hcu] at hu
  rw [hfin hct, hfin hcu] at htu
  injection htu with _ htu
  exact hb.gate.id_inj hct (htu ▸ hcu)

end Books

/-- The commit of an epoch runs when every transaction of the epoch but the one
that leaves has left, and nobody still owes one. -/
def CommitsAlone : Discipline (State τ W) (Event τ W) := fun h s e =>
  ∀ T, e.left? = some (T, true) →
    (∀ T' ∈ begun h, T'.epoch = T.epoch → T' ≠ T → HasLeft h T') ∧
      ∀ t, (s.client t).isWoken = false

/-- **Conservation in the batcher.** In every reachable state the counters count
what they should, ids are unique and below `n_in_epoch`, commits are exclusive,
and a transaction finds its own flag in `is_ro_flags`. -/
theorem batcher_conservation [Zero W] {s₀ s : State τ W} {h : List (Event τ W)}
    (hrest : s₀.AtRest) (hr : Run State.step anyStep s₀ h s) :
    s.gate.batcher.nRemaining =
        {T : Txn | T ∈ begun h ∧ T.epoch = s.epoch ∧ ¬ HasLeft h T}.ncard +
          countOf Client.isWoken s.gate.client ∧
      s.gate.batcher.nBlocked = countOf Client.isBlocked s.gate.client ∧
      (s.gate.batcher.nRemaining = 0 → ∀ t, (s.client t).isBlocked = false) ∧
      (begun h).Nodup ∧
      (∀ T ∈ begun h, T.epoch = s.epoch → (T.id : ℤ) < s.gate.batcher.nInEpoch) ∧
      Run State.step CommitsAlone s₀ h s ∧
      (Fintype.card τ ≤ MAX_NUM_SEGMENTS → ∀ t id, s.client t = .inside id →
        s.call t ≠ .beginning → id < MAX_NUM_SEGMENTS ∧
          flagOf (s.txn id) h = some (s.region.isRoFlags id)) := by
  have hb := Books.run hrest hr
  have hlt : ∀ T ∈ begun h, T.epoch = s.epoch → (T.id : ℤ) < s.gate.batcher.nInEpoch := by
    intro T hT he
    have hin := hb.gate.inEpoch
    rcases hb.ids.begun_lt hT with hep | ⟨-, hid⟩
    · exact absurd he hep.ne
    · omega
  refine ⟨?_, hb.gate.blocked, ?_, hb.ids.nodup, hlt, ?_, ?_⟩
  · rw [hb.ncard_running]
    exact hb.gate.remaining
  · intro h0
    apply countOf_eq_zero.mp
    have hblk := hb.gate.blocked
    rw [(hb.gate.idle h0).1] at hblk
    exact_mod_cast hblk.symm
  · clear hb hlt
    induction hr with
    | start => exact .start
    | @next h s s' a e hr hs _ ih =>
      apply ih.next hs
      intro T hl
      have hb := Books.run hrest hr
      have hm := (step_cases hs).gateMove
      generalize s'.gate = g' at hm
      cases hm with
      | quiet _ hl' => rw [hl'] at hl; cases hl
      | waits _ hl' _ _ => rw [hl'] at hl; cases hl
      | opens _ _ => cases hl
      | wakes _ => cases hl
      | @leaves _ t id hc _ hl' =>
        rw [hl'] at hl
        obtain ⟨rfl, hlast⟩ := Prod.mk.inj (Option.some.inj hl)
        have halone := fun {u} => hb.gate.last_alone (u := u) hc hlast
        constructor
        · intro T' hT' he hne
          by_contra hstay
          obtain ⟨u, hu, -⟩ := (Books.inside_iff hb.ids).mp ⟨hT', he, hstay⟩
          obtain rfl | hut := eq_or_ne u t
          · rw [hc] at hu
            injection hu with hu
            obtain ⟨ep, k⟩ := T'
            exact hne (by rw [show ep = _ from he, ← show id = k from hu])
          · have := (halone hut).1
            rw [hu] at this
            cases this
        · intro u
          by_cases hut : u = t
          · rw [hut, State.client, hc]
            rfl
          · exact (halone hut).2
  · intro hcard t id hc hcall
    have hmem := mem_begun (hb.ids.holds.mp hc).1
    have hid := hlt _ hmem rfl
    have hcap := hb.capacity
    refine ⟨by simp only at hid; omega, ?_⟩
    rw [hb.threads.flag hc hcall]
    exact hb.flags hc

/-- A region of two words, and two threads that have not called anything yet. -/
def restState : State Bool ℕ where
  region := tmCreate 16 8 (fun _ => initSegment 8 0) fun _ => false
  gate := restGate
  thread := fun _ => ⟨false, .rest⟩

omit [DecidableEq τ] [Fintype τ] in
theorem restState_atRest : restState.AtRest := ⟨⟨rfl, fun _ => rfl⟩, fun _ => rfl⟩

/-- The second thread waits for the epoch of the first to end, and reads with its
own flag. -/
theorem batcher_conservation_woken :
    ∃ s, Run State.step CommitsAlone restState
        [.silent, .began false ⟨1, 0⟩, .ended ⟨0, 0⟩ true, .waiting false, .called false true,
          .silent, .began true ⟨0, 0⟩, .called true false] s ∧
      s.gate.batcher.nRemaining = 1 ∧ s.region.isRoFlags 0 = true := by
  have hr : Run State.step anyStep restState [] restState := .start
  have hrun := hr.of_exec [.tmBegin true false, .enter true, .setFlag true, .tmBegin false true,
    .enter false, .tmEnd true, .wake false, .setFlag false] rfl
  obtain ⟨-, -, -, -, -, halone, hflag⟩ := batcher_conservation restState_atRest hrun
  refine ⟨_, halone, rfl, ?_⟩
  have hrest : (Call.rest : Call ℕ) ≠ .beginning := by simp
  have := (hflag (by decide) false 0 rfl hrest).2
  exact (Option.some.inj this).symm

end DualStm
