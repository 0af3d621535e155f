import DualStm.Isolation

/-!
# A run cut into epochs

A run passes through one state at which each of its epochs starts. The events
after it are about transactions of this epoch and later ones, so what the
history says of earlier transactions is settled there.

Real time is about the same cut: a transaction whose `tm_begin` is called after
another one has left runs in a later epoch (`RealTime`).
-/

namespace DualStm

variable {τ W : Type}

/-- The history of a run that has just come to the start of an epoch. -/
def EpochStart (h : List (Event τ W)) : Prop := h = [] ∨ ∃ e g, h = e :: g ∧ e.closes

/-- The event is of a `tm_free`, granted or refused. -/
def Event.isFree : Event τ W → Bool
  | .freed _ _ => true
  | .freeRefused _ _ => true
  | _ => false

/-- The discipline of the runs that free nothing. -/
def freesNothing : Discipline (State τ W) (Event τ W) := fun _ _ e => e.isFree = false

instance (h : List (Event τ W)) (s : State τ W) (e : Event τ W) :
    Decidable (freesNothing h s e) := inferInstanceAs (Decidable (_ = _))

theorem avoids_of_freesNothing {e : Event τ W} (he : e.isFree = false) : e.avoids ∅ := by
  cases e <;> first | trivial | exact Set.notMem_empty _

variable [DecidableEq τ]

/-! ## What stays as it was

A step within an epoch changes no committed value, and neither begins nor ends an epoch. What
was committed before stays as it was. -/

/-- The leave of a transaction is an event of its own epoch. -/
theorem Step.left_epoch [Zero W] {s s' : State τ W} {e : Event τ W} (hs : Step s e s') {T : Txn}
    {b : Bool} (hl : e.left? = some (T, b)) : T.epoch = s.epoch := by
  have hm := hs.gateMove
  generalize s'.gate = g' at hm
  cases hm with
  | quiet _ hl' => rw [hl'] at hl; cases hl
  | waits _ hl' _ _ => rw [hl'] at hl; cases hl
  | opens _ _ => cases hl
  | wakes _ => cases hl
  | leaves _ _ hl' =>
    rw [hl'] at hl
    obtain ⟨rfl, -⟩ := Prod.mk.inj (Option.some.inj hl)
    rfl

/-- A transaction that begins is one of the epoch the step is in. -/
theorem Step.began_epoch [Zero W] {s s' : State τ W} {t : τ} {T : Txn}
    (hs : Step s (.began t T) s') : T.epoch = s.epoch := by
  have hm := hs.gateMove
  generalize s'.gate = g' at hm
  cases hm with
  | quiet hb _ => cases hb
  | waits hb _ _ _ => cases hb
  | opens _ _ => rfl
  | wakes _ => rfl
  | leaves _ hb _ => cases hb

section

variable [Zero W] {Q : Discipline (State τ W) (Event τ W)} {h g : List (Event τ W)}
  {s s₁ : State τ W} {T : Txn}

/-- The epoch never goes down. -/
theorem Run.epoch_le (hr : Run State.step Q s₁ h s) : s₁.epoch ≤ s.epoch := by
  induction hr with
  | start => exact le_rfl
  | next _ hs _ ih =>
    rcases (step_cases hs).epoch with ⟨-, hep⟩ | ⟨-, -, hep⟩ <;> omega

/-- The history says how many epochs are over. -/
theorem Run.epoch_eq {Q' : Discipline (State τ W) (Event τ W)} {s' : State τ W}
    (hr : Run State.step Q s₁ h s) (hr' : Run State.step Q' s₁ h s') : s'.epoch = s.epoch := by
  induction hr generalizing s' with
  | start =>
    cases hr'
    rfl
  | next hr hs _ ih =>
    obtain ⟨s₂, a, hr₂, hs₂, -⟩ := hr'.last
    have heq := ih hr₂
    rcases (step_cases hs).epoch with ⟨hc, hep⟩ | ⟨hl, -, hep⟩ <;>
      rcases (step_cases hs₂).epoch with ⟨hc₂, hep₂⟩ | ⟨hl₂, -, hep₂⟩
    · rw [hep, hep₂, heq]
    · exact absurd ⟨_, hl₂.choose_spec⟩ hc
    · exact absurd ⟨_, hl.choose_spec⟩ hc₂
    · rw [hep, hep₂, heq]

/-- What a transaction of an earlier epoch wrote is settled. -/
theorem Run.lastWrite_append (hr : Run State.step Q s₁ g s) (hT : T.epoch < s₁.epoch) (ℓ : Loc) :
    lastWrite T ℓ (g ++ h) = lastWrite T ℓ h := by
  induction hr with
  | start => rfl
  | next hr hs _ ih =>
    have hle := Run.epoch_le hr
    rw [List.cons_append, ((step_cases hs).other_epoch (by omega) ℓ).1, ih]

/-- Whether it left, and how, is settled. -/
theorem Run.ended_append (hr : Run State.step Q s₁ g s) (hT : T.epoch < s₁.epoch) :
    Ended (g ++ h) T ↔ Ended h T := by
  induction hr with
  | start => rfl
  | @next g s s' a e hr hs _ ih =>
    have hle := Run.epoch_le hr
    rw [← ih]
    apply exists_congr
    intro b
    rw [List.cons_append, List.mem_cons, or_iff_right]
    rintro rfl
    have := (step_cases hs).left_epoch rfl
    omega

/-- A transaction begins in the run that follows the start of its epoch. -/
theorem Run.begun_ge (hr : Run State.step Q s₁ g s) (hT : T ∈ begun g) : s₁.epoch ≤ T.epoch := by
  induction hr with
  | start => cases hT
  | @next g s s' a e hr hs _ ih =>
    obtain ⟨t, ht⟩ := exists_began hT
    rcases List.mem_cons.mp ht with rfl | ht
    · have := Run.epoch_le hr
      have := (step_cases hs).began_epoch
      omega
    · exact ih (mem_begun ht)

/-- The memory an epoch started from is settled. -/
theorem Run.epochMem_append (hr : Run State.step Q s₁ g s) {m₀ : Loc → W} {ep : ℕ}
    (hep : ep ≤ s₁.epoch) : epochMem m₀ ep (g ++ h) = epochMem m₀ ep h := by
  induction hr with
  | start => rfl
  | @next g s s' a e hr hs _ ih =>
    rw [List.cons_append]
    have hle := Run.epoch_le hr
    rcases (step_cases hs).epoch with ⟨hc, -⟩ | ⟨⟨id, hl⟩, -, -⟩
    · rw [epochMem_cons hc, ih]
    · rw [epochMem_closing_ne hl, ih]
      simp only
      omega

/-- **The start of an epoch.** A run that has come to an epoch has a state in which this epoch
began, and its memory is what was committed until then. -/
theorem Run.epochStart (hr : Run State.step Q s₁ h s) (m₀ : Loc → W) {ep : ℕ}
    (hge : s₁.epoch ≤ ep) (hle : ep ≤ s.epoch) :
    ∃ h₂ h₁ s₂, h = h₂ ++ h₁ ∧ Run State.step Q s₁ h₁ s₂ ∧
      Run State.step (fun g => Q (g ++ h₁)) s₂ h₂ s ∧ EpochStart h₁ ∧ s₂.epoch = ep ∧
      epochMem m₀ ep h = committedMem m₀ h₁ := by
  induction hr with
  | start =>
    exact ⟨[], [], s₁, rfl, .start, .start, .inl rfl, le_antisymm hge hle, rfl⟩
  | @next h s s' a e hr hs hq ih =>
    have hstep := step_cases hs
    by_cases hep : ep ≤ s.epoch
    · obtain ⟨h₂, h₁, s₂, rfl, hr₁, hr₂, hst, hep₂, hmem⟩ := ih hep
      refine ⟨e :: h₂, h₁, s₂, rfl, hr₁, hr₂.next hs hq, hst, hep₂, ?_⟩
      rw [← hmem]
      rcases hstep.epoch with ⟨hc, -⟩ | ⟨⟨id, hl⟩, -, -⟩
      · exact epochMem_cons hc
      · apply epochMem_closing_ne hl
        simp only
        omega
    · rcases hstep.epoch with ⟨-, hep'⟩ | ⟨⟨id, hl⟩, -, hep'⟩
      · omega
      · obtain rfl : ep = s.epoch + 1 := by omega
        exact ⟨[], e :: h, s', rfl, hr.next hs hq, .start, .inr ⟨e, h, rfl, _, hl⟩, hep',
          epochMem_closing hl rfl⟩

end

/-! ## Where committed values come from

At a commit each word takes the write of one transaction of the epoch, or keeps its value. So
the memory at the start of an epoch is told by the history alone. -/

/-- The committed memory holds the last writes of transactions that left through
`tm_end`, and loses none of them but to later ones. -/
structure Provenance (m₀ : Loc → W) (h : List (Event τ W)) (ep : ℕ) (ℓ : Loc) : Prop where
  /-- a committed value is the initial one or somebody's last write -/
  source : committedMem m₀ h ℓ = m₀ ℓ ∨
    ∃ U, Ended h U ∧ U.epoch < ep ∧ lastWrite U ℓ h = some (committedMem m₀ h ℓ)
  /-- a committed write stays until a later one -/
  kept : ∀ {T v}, Ended h T → T.epoch < ep → lastWrite T ℓ h = some v →
    ∃ U, Ended h U ∧ U.epoch < ep ∧ (U = T ∨ T.epoch < U.epoch) ∧
      lastWrite U ℓ h = some (committedMem m₀ h ℓ)

section

variable [Fintype τ] [Zero W] {m₀ : Loc → W} {dead : Set ℕ} {h : List (Event τ W)}
  {s s' : State τ W} {e : Event τ W} {ℓ : Loc}

/-- At most one transaction of an epoch commits a write to a word. -/
theorem Isolated.unique_writer (hi : Isolated m₀ dead h s) (hd : ℓ.1 ∉ dead) {T U : Txn}
    {v w : W} (hep : T.epoch = U.epoch) (hlt : T.epoch < s.epoch) (hT : Ended h T)
    (hTv : lastWrite T ℓ h = some v) (hU : Ended h U) (hUw : lastWrite U ℓ h = some w) :
    T = U :=
  hi.unique hd hep ((hi.writes.past hi.books hlt).mpr ⟨hT, hTv⟩)
    ((hi.writes.past hi.books (hep ▸ hlt)).mpr ⟨hU, hUw⟩)

theorem provenance_step (hp : Provenance m₀ h s.epoch ℓ) (hi' : Isolated m₀ dead (e :: h) s')
    (hd : ℓ.1 ∉ dead) (hs : Step s e s') : Provenance m₀ (e :: h) s'.epoch ℓ := by
  have hended : ∀ {T}, T.epoch < s.epoch → (Ended (e :: h) T ↔ Ended h T) := by
    intro T hlt
    apply exists_congr
    intro b
    rw [List.mem_cons, or_iff_right]
    rintro rfl
    exact hlt.ne (hs.left_epoch rfl)
  have hlw : ∀ {T}, T.epoch < s.epoch → lastWrite T ℓ (e :: h) = lastWrite T ℓ h :=
    fun hlt => (hs.other_epoch hlt.ne ℓ).1
  rcases hs.epoch with ⟨hc, hep⟩ | ⟨⟨id, hl⟩, -, hep⟩
  · -- within an epoch nothing is committed
    rw [hep]
    constructor
    · rw [committedMem_cons hc]
      rcases hp.source with h0 | ⟨U, hU, hlt, hv⟩
      · exact .inl h0
      · exact .inr ⟨U, (hended hlt).mpr hU, hlt, by rw [hlw hlt, hv]⟩
    · intro T v hT hlt hv
      rw [committedMem_cons hc]
      rw [hended hlt] at hT
      rw [hlw hlt] at hv
      obtain ⟨U, hU, hUlt, hor, hUv⟩ := hp.kept hT hlt hv
      exact ⟨U, (hended hUlt).mpr hU, hUlt, hor, by rw [hlw hUlt, hUv]⟩
  · rw [hep]
    have hmem : committedMem m₀ (e :: h) ℓ =
        (committedWrite s.epoch ℓ (e :: h)).getD (committedMem m₀ h ℓ) := committedMem_closing hl
    rcases hw : committedWrite s.epoch ℓ (e :: h) with _ | w
    · rw [hw, Option.getD_none] at hmem
      have hnone : ∀ {T v}, Ended (e :: h) T → lastWrite T ℓ (e :: h) = some v →
          T.epoch ≠ s.epoch := by
        intro T v hT hv hTep
        have := List.findSome?_eq_none_iff.mp hw T (mem_endedIn.mpr ⟨hT, hTep⟩)
        rw [hv] at this
        cases this
      constructor
      · rw [hmem]
        rcases hp.source with h0 | ⟨U, hU, hlt, hv⟩
        · exact .inl h0
        · exact .inr ⟨U, (hended hlt).mpr hU, Nat.lt_succ_of_lt hlt, by rw [hlw hlt, hv]⟩
      · intro T v hT hlt hv
        rw [hmem]
        have hlt : T.epoch < s.epoch :=
          lt_of_le_of_ne (Nat.lt_succ_iff.mp hlt) (hnone hT hv)
        rw [hended hlt] at hT
        rw [hlw hlt] at hv
        obtain ⟨U, hU, hUlt, hor, hUv⟩ := hp.kept hT hlt hv
        exact ⟨U, (hended hUlt).mpr hU, Nat.lt_succ_of_lt hUlt, hor, by rw [hlw hUlt, hUv]⟩
    · rw [hw, Option.getD_some] at hmem
      obtain ⟨U, hU, hUep, hUw⟩ := exists_of_committedWrite hw
      have hUlt : U.epoch < s.epoch + 1 := by omega
      rw [← hmem] at hUw
      refine ⟨.inr ⟨U, hU, hUlt, hUw⟩, fun {T v} hT hlt hv => ⟨U, hU, hUlt, ?_, hUw⟩⟩
      rcases Nat.lt_succ_iff_lt_or_eq.mp hlt with hlt' | heq
      · exact .inr (by omega)
      · exact .inl (hi'.unique_writer hd (hUep.trans heq.symm) (by omega) hU hUw hT hv)

/-- Committed values have their sources in every reachable state. -/
theorem provenance {Q : Discipline (State τ W) (Event τ W)}
    (hQ : ∀ h s e, Q h s e → e.avoids dead) {s₀ : State τ W} (hrest : s₀.AtRest)
    (hset : s₀.region.Settled dead) (hd : ℓ.1 ∉ dead) (hr : Run State.step Q s₀ h s) :
    Provenance s₀.committed h s.epoch ℓ := by
  induction hr with
  | start =>
    refine ⟨.inl rfl, ?_⟩
    intro T v hT
    obtain ⟨b, hb⟩ := hT
    cases hb
  | @next h s s' a e hr hs hq ih =>
    exact provenance_step ih (.run hQ hrest hset (hr.next hs hq)) hd (step_cases hs)

end

/-! ## Real time

A thread that calls `tm_begin` after a transaction has left gets its id in a later epoch than
that one's: either its epoch is over already, or the thread has to wait for its end. -/

/-- A thread inside `tm_begin` gets its id in a later epoch than that of every
transaction that had left when it called. -/
def RealTime (h : List (Event τ W)) (s : State τ W) : Prop :=
  ∀ {t}, s.call t = .beginning → (∀ id, s.client t ≠ .inside id) →
    ∀ {T}, HasLeft (beforeCall t h) T → T.epoch < s.epoch ∨
      T.epoch = s.epoch ∧ (s.client t = .outside ∨ ∃ n, s.client t = .blocked n)

theorem hasLeft_of_beforeCall {t : τ} {h : List (Event τ W)} {T : Txn}
    (hl : HasLeft (beforeCall t h) T) : HasLeft h T := by
  obtain ⟨e, he, b, hb⟩ := hl
  exact ⟨e, mem_of_beforeCall he, b, hb⟩

/-- A thread inside `tm_begin` stays as it is or comes to be blocked, unless the epoch ends. -/
def Waits (s s' : State τ W) (t : τ) : Prop :=
  s'.epoch = s.epoch ∧ (s'.client t = s.client t ∨ s.client t = .outside ∧
    ∃ n, s'.client t = .blocked n) ∨ s'.epoch = s.epoch + 1

section

variable {s s' : State τ W} {t u : τ}

omit [DecidableEq τ] in
theorem Waits.of_gate (hg : s'.gate = s.gate) : Waits s s' t :=
  .inl ⟨by rw [State.epoch, hg], .inl (by rw [State.client, hg])⟩

/-- A leave wakes the blocked threads, or moves nobody else. -/
theorem Waits.leave (htu : t ≠ u) (hg : s'.gate = s.gate.afterLeave u)
    (hc : ∀ id, s'.client t ≠ .inside id) : (∀ id, s.client t ≠ .inside id) ∧ Waits s s' t := by
  have hcl : s'.client t = (s.gate.afterLeave u).client t := by rw [State.client, hg]
  have hep : s'.epoch = (s.gate.afterLeave u).batcher.curEpoch := by rw [State.epoch, hg]
  rw [hcl] at hc
  rw [Waits, hcl, hep]
  by_cases hn : s.gate.batcher.nRemaining = 1
  · rw [Gate.afterLeave_last hn] at hc ⊢
    refine ⟨fun id hin => hc id ?_, .inr rfl⟩
    simp only [Function.update_of_ne htu]
    exact Client.wakeUp_eq_inside.mpr hin
  · rw [Gate.afterLeave_early hn] at hc ⊢
    simp only [Function.update_of_ne htu] at hc
    exact ⟨hc, .inl ⟨rfl, .inl (Function.update_of_ne htu _ _)⟩⟩

/-- A thread that takes an id moves nobody else. -/
theorem Waits.letIn {b : Batcher} (hcur : b.curEpoch = s.epoch)
    (hc : ∀ id, (s.setGate (Gate.letIn b s.gate.client u)).client t ≠ .inside id) :
    (∀ id, s.client t ≠ .inside id) ∧ Waits s (s.setGate (Gate.letIn b s.gate.client u)) t := by
  have htu : t ≠ u := by
    rintro rfl
    exact hc (takeId b).1 (by simp [State.client, Gate.letIn])
  have hcl : (s.setGate (Gate.letIn b s.gate.client u)).client t = s.client t := by
    simp only [State.client, State.setGate_gate, Gate.letIn, Function.update_of_ne htu]
  exact ⟨fun id => by rw [← hcl]; exact hc id, .inl ⟨hcur, .inl hcl⟩⟩

/-- Coming to the gate blocks the thread that comes. -/
theorem Waits.wait {b : Batcher} (hcur : b.curEpoch = s.epoch) (hu : s.client u = .outside)
    (hc : ∀ id, (s.setGate (Gate.wait b s.gate.client u)).client t ≠ .inside id) :
    (∀ id, s.client t ≠ .inside id) ∧ Waits s (s.setGate (Gate.wait b s.gate.client u)) t := by
  obtain rfl | htu := eq_or_ne t u
  · refine ⟨?_, .inl ⟨hcur, .inr ⟨hu, b.curEpoch, ?_⟩⟩⟩
    · intro id
      rw [hu]
      rintro ⟨⟩
    · simp [State.client, Gate.wait]
  · have hcl : (s.setGate (Gate.wait b s.gate.client u)).client t = s.client t := by
      simp only [State.client, State.setGate_gate, Gate.wait, Function.update_of_ne htu]
    exact ⟨fun id => by rw [← hcl]; exact hc id, .inl ⟨hcur, .inl hcl⟩⟩

/-- A thread that moves on elsewhere is not the one inside `tm_begin`. -/
theorem beginning_of_setCall {c : Call W} (hth : s'.thread = s.thread) (hne : c ≠ .beginning)
    (hr : (s'.setCall u c).call t = .beginning) : t ≠ u ∧ s.call t = .beginning := by
  rw [State.setCall_call] at hr
  split at hr
  · exact absurd hr hne
  · rename_i htu
    exact ⟨htu, by rw [State.call, ← hth]; exact hr⟩

/-- Others move on inside the library. -/
theorem Waits.setCall {c : Call W} (hth : s'.thread = s.thread) (hg : s'.gate = s.gate)
    (hne : c ≠ .beginning) (hr : (s'.setCall u c).call t = .beginning)
    (hc : ∀ id, (s'.setCall u c).client t ≠ .inside id) :
    s.call t = .beginning ∧ (∀ id, s.client t ≠ .inside id) ∧ Waits s (s'.setCall u c) t := by
  have hcl : (s'.setCall u c).client t = s.client t := by
    rw [State.client, State.setCall_gate, hg]
  exact ⟨(beginning_of_setCall hth hne hr).2, fun id => by rw [← hcl]; exact hc id, .of_gate hg⟩

end

/-- What happens to a thread that is inside `tm_begin` after a step. -/
theorem Step.beginning [Zero W] {s s' : State τ W} {e : Event τ W} (hs : Step s e s') {t : τ}
    (hr : s'.call t = .beginning) (hc : ∀ id, s'.client t ≠ .inside id) :
    (∃ isRo, e = .called t isRo) ∨
      (∀ h, beforeCall t (e :: h) = beforeCall t h) ∧ s.call t = .beginning ∧
        (∀ id, s.client t ≠ .inside id) ∧ Waits s s' t := by
  cases hs with
  | @called u isRo hc' hr' =>
    by_cases htu : t = u
    · exact .inl ⟨isRo, by rw [htu]⟩
    · refine .inr ⟨fun h => if_neg (Ne.symm htu), ?_, hc, .of_gate rfl⟩
      simpa only [State.call, Function.update_of_ne htu] using hr
  | opened => exact .inr ⟨fun _ => rfl, hr, Waits.letIn rfl hc⟩
  | woke => exact .inr ⟨fun _ => rfl, hr, Waits.letIn rfl hc⟩
  | waiting hc' hr' hn => exact .inr ⟨fun _ => rfl, hr, Waits.wait rfl hc' hc⟩
  | alloced => exact .inr ⟨fun _ => rfl, hr, hc, .of_gate rfl⟩
  | freed => exact .inr ⟨fun _ => rfl, hr, hc, .of_gate rfl⟩
  | @left u id fin hc' hr' hn =>
    obtain ⟨htu, hcall⟩ := beginning_of_setCall (s := s) rfl (by rintro ⟨⟩) hr
    exact .inr ⟨fun _ => by cases fin <;> rfl, hcall, Waits.leave htu rfl hc⟩
  | @closed u id fin r hc' hr' hn hcommit =>
    obtain ⟨htu, hcall⟩ := beginning_of_setCall (s := s) rfl (by rintro ⟨⟩) hr
    exact .inr ⟨fun _ => by cases fin <;> rfl, hcall, Waits.leave htu rfl hc⟩
  | _ => exact .inr ⟨fun _ => rfl, Waits.setCall rfl rfl (by rintro ⟨⟩) hr hc⟩

/-- Every step keeps real time. -/
theorem realTime_step [Fintype τ] [Zero W] {h : List (Event τ W)} {s s' : State τ W}
    {e : Event τ W} (ht : RealTime h s) (hb : Books h s) (hs : Step s e s') :
    RealTime (e :: h) s' := by
  intro t hr hc T hl
  have hle : ∀ {T}, HasLeft h T → T.epoch ≤ s.epoch := by
    intro T hT
    rcases hb.ids.begun_lt (hb.ids.begun_of_left hT) with hlt | ⟨heq, -⟩
    · exact hlt.le
    · exact heq.le
  rcases hs.beginning hr hc with ⟨isRo, rfl⟩ | ⟨hbefore, hr', hc', hmove⟩
  · -- the call itself: the thread is still outside
    rw [beforeCall, if_pos rfl] at hl
    generalize he : Event.called t isRo = e at hs
    cases hs with
    | @called u b hcu hru =>
      injection he with htu _
      subst htu
      rcases lt_or_eq_of_le (hle hl) with hlt | heq
      · exact .inl hlt
      · exact .inr ⟨heq, .inl hcu⟩
    | @left u id fin => cases fin <;> cases he
    | @closed u id fin => cases fin <;> cases he
    | _ => cases he
  · rw [hbefore] at hl
    rcases hmove with ⟨hep, hcl⟩ | hep
    · rcases ht hr' hc' hl with hlt | ⟨heq, hor⟩
      · exact .inl (hep ▸ hlt)
      · refine .inr ⟨heq.trans hep.symm, ?_⟩
        rcases hcl with hcl | ⟨-, n, hcl⟩
        · rw [hcl]
          exact hor
        · exact .inr ⟨n, hcl⟩
    · have := hle (hasLeft_of_beforeCall hl)
      exact .inl (by omega)

/-- Real time holds in every reachable state. -/
theorem RealTime.run [Fintype τ] [Zero W] {Q : Discipline (State τ W) (Event τ W)}
    {s₀ s : State τ W} {h : List (Event τ W)} (hrest : s₀.AtRest)
    (hr : Run State.step Q s₀ h s) : RealTime h s := by
  induction hr with
  | start =>
    intro t hc
    rw [hrest.2 t] at hc
    cases hc
  | next hr hs _ ih => exact realTime_step ih (.run hrest hr) (step_cases hs)

/-- A transaction is in a later epoch than all that left before its call. -/
theorem Step.began_after [Fintype τ] [Zero W] {h : List (Event τ W)} {s s' : State τ W} {t : τ}
    {T U : Txn} (hs : Step s (.began t T) s') (ht : RealTime h s) (hb : Books h s)
    (hU : HasLeft (beforeCall t h) U) : U.epoch < T.epoch := by
  rw [hs.began_epoch]
  generalize he : Event.began t T = e at hs
  cases hs with
  | @opened u hc hr hn =>
    injection he with htu _
    subst htu
    rcases ht hr (fun id => by rw [hc]; simp) hU with hlt | ⟨heq, -⟩
    · exact hlt
    · -- somebody left this epoch, so it is not over
      exfalso
      have hmem := hb.ids.begun_of_left (hasLeft_of_beforeCall hU)
      rcases hb.ids.begun_lt hmem with hlt | ⟨-, hid⟩
      · exact hlt.ne heq
      · have hidle := (hb.gate.idle hn).2
        have hin := hb.gate.inEpoch
        omega
  | @woke u since hc =>
    injection he with htu _
    subst htu
    rcases ht (hb.threads.woken hc) (fun id => by rw [hc]; simp) hU with hlt | ⟨-, hor⟩
    · exact hlt
    · rw [hc] at hor
      simp at hor
  | @left u id fin => cases fin <;> cases he
  | @closed u id fin => cases fin <;> cases he
  | _ => cases he

end DualStm
