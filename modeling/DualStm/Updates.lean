import DualStm.Serializability

/-!
# No lost update

A read-modify-write of a word reads it and then writes what a function of its own
makes of the value. Two of them that run in the same epoch read the same old
value, whatever `access_set` has recorded; but only one of them can own the word
when it writes, so at most one of them leaves through `tm_end`. Epoch after epoch
the word is then changed by one function at a time.
-/

namespace DualStm

variable {τ W : Type}

/-- The accesses to the word are a read, and after it writes of what `f` makes of
the value it returned. -/
def Updates (f : W → W) (ℓ : Loc) (as : List (Access Loc W)) : Prop :=
  ∃ v rest, as.filter (fun a => a.place = ℓ) = .read ℓ v :: rest ∧
    ∀ w, .write ℓ w ∈ rest → w = f v

/-- The transaction accessed the word. -/
def touches (T : Txn) (ℓ : Loc) (h : List (Event τ W)) : Bool :=
  (accesses T h).any fun a => a.place = ℓ

/-- A transaction that accesses nothing. -/
theorem accesses_eq_nil {T : Txn} {h : List (Event τ W)}
    (hnone : ∀ e ∈ h, ∀ ℓ ∈ e.access?, e.txn? ≠ some T) : accesses T h = [] := by
  induction h with
  | nil => rfl
  | cons e h ih =>
    obtain ⟨he, hrest⟩ := List.forall_mem_cons.mp hnone
    cases e with
    | read U ℓ v =>
      have hU : U ≠ T := fun hU => he ℓ rfl (by rw [hU, Event.txn?])
      rw [accesses, ih hrest, if_neg hU, List.append_nil]
    | wrote U ℓ v =>
      have hU : U ≠ T := fun hU => he ℓ rfl (by rw [hU, Event.txn?])
      rw [accesses, ih hrest, if_neg hU, List.append_nil]
    | _ => exact ih hrest

/-- **The discipline on one word.** Every read-write transaction that touches it
reads it and then writes `f T` of the value, at the latest before its `tm_end`. -/
def ReadModifyWrite [DecidableEq τ] (f : Txn → W → W) (ℓ : Loc) (h : List (Event τ W)) : Prop :=
  ∀ T, flagOf T h ≠ some true → touches T ℓ h = true →
    Updates (f T) ℓ (accesses T h) ∧ (Ended h T → ∃ w, .write ℓ w ∈ accesses T h)

theorem Updates.readsFirst {f : W → W} {ℓ : Loc} {as : List (Access Loc W)}
    (hu : Updates f ℓ as) :
    ∃ v, ReadsFirst as ℓ v ∧ ∀ w, lastIn ℓ as = some w → w = f v := by
  obtain ⟨v, rest, hfilter, hrest⟩ := hu
  obtain ⟨pre, post, rfl, hpre, -, hpost⟩ := List.filter_eq_cons_iff.mp hfilter
  refine ⟨v, ⟨pre, post, rfl, ?_⟩, fun w hw => hrest w ?_⟩
  · cases hl : lastIn ℓ pre with
    | none => rfl
    | some w => exact absurd (decide_eq_true rfl) (hpre _ (mem_of_lastIn hl))
  · have hmem : .write ℓ w ∈ (pre ++ .read ℓ v :: post).filter (fun a => a.place = ℓ) :=
      List.mem_filter.mpr ⟨mem_of_lastIn hw, by simp [Access.place]⟩
    rw [hfilter] at hmem
    simpa using hmem

theorem touches_of_lastWrite {T : Txn} {ℓ : Loc} {h : List (Event τ W)} {w : W}
    (hw : lastWrite T ℓ h = some w) : touches T ℓ h = true := by
  rw [← lastIn_accesses] at hw
  exact List.any_eq_true.mpr ⟨_, mem_of_lastIn hw, by simp [Access.place]⟩

/-! ## From epoch to epoch

Of the transactions of an epoch that read and write a word at most one leaves through `tm_end`.
So the word changes from epoch to epoch by the function of one transaction, or not at all. -/

theorem findSome?_congr {α β : Type} {f g : α → Option β} {l : List α}
    (hfg : ∀ a ∈ l, f a = g a) : l.findSome? f = l.findSome? g := by
  induction l with
  | nil => rfl
  | cons a l ih =>
    obtain ⟨ha, hl⟩ := List.forall_mem_cons.mp hfg
    rw [List.findSome?_cons, List.findSome?_cons, ha, ih hl]

variable [DecidableEq τ]

section

variable [Zero W] {h : List (Event τ W)} {s s' s₀ : State τ W} {e : Event τ W} {ℓ : Loc}

/-- What an earlier epoch committed is settled. -/
theorem Step.committedWrite_eq (hs : Step s e s') {k : ℕ} (hk : k < s.epoch) :
    committedWrite k ℓ (e :: h) = committedWrite k ℓ h := by
  have hended : endedIn k (e :: h) = endedIn k h := by
    apply List.filterMap_cons_none
    cases e with
    | ended T b =>
      have hT := hs.left_epoch (T := T) (b := b) rfl
      exact if_neg (by omega)
    | _ => rfl
  rw [committedWrite, hended, committedWrite]
  apply findSome?_congr
  intro T hT
  have hep := (mem_endedIn.mp hT).2
  exact (hs.other_epoch (by omega) ℓ).1

variable [Fintype τ]

/-- An epoch starts from what the one before started from and committed. -/
theorem epochMem_succ {Q : Discipline (State τ W) (Event τ W)} {dead : Set ℕ}
    (hQ : ∀ h s e, Q h s e → e.avoids dead) (hrest : s₀.AtRest)
    (hset : s₀.region.Settled dead) (hr : Run State.step Q s₀ h s) {k : ℕ} (hge : s₀.epoch ≤ k)
    (hk : k < s.epoch) :
    epochMem s₀.committed (k + 1) h ℓ =
      (committedWrite k ℓ h).getD (epochMem s₀.committed k h ℓ) := by
  induction hr with
  | start => omega
  | @next h s s' a e hr hs hq ih =>
    have hstep := step_cases hs
    rcases hstep.epoch with ⟨hc, hep⟩ | ⟨⟨id, hl⟩, -, hep⟩
    · rw [epochMem_cons hc, epochMem_cons hc, hstep.committedWrite_eq (by omega), ih (by omega)]
    · rcases Nat.lt_succ_iff_lt_or_eq.mp (hep ▸ hk) with hlt | rfl
      · rw [epochMem_closing_ne hl (by simp only; omega),
          epochMem_closing_ne hl (by simp only; omega), hstep.committedWrite_eq hlt, ih hlt]
      · rw [epochMem_closing hl rfl, epochMem_closing_ne hl (by simp only; omega),
          (Isolated.run hQ hrest hset hr).words.mem, committedMem_closing hl]

end

/-! ## The updates of a word

The updates of a word over a run, epoch after epoch, are the functions of the transactions that
left through `tm_end`, each of them once. -/

/-- The transaction of an epoch whose update of the word was committed. -/
def updater (ℓ : Loc) (h : List (Event τ W)) (k : ℕ) : Option Txn :=
  (endedIn k h).find? fun T => flagOf T h ≠ some true ∧ touches T ℓ h = true

theorem updater_eq_some {ℓ : Loc} {h : List (Event τ W)} {k : ℕ} {T : Txn}
    (hT : updater ℓ h k = some T) :
    Ended h T ∧ T.epoch = k ∧ flagOf T h ≠ some true ∧ touches T ℓ h = true := by
  obtain ⟨hended, hep⟩ := mem_endedIn.mp (List.mem_of_find?_eq_some hT)
  exact ⟨hended, hep, by simpa using List.find?_some hT⟩

/-- The updates of the first epochs, in epoch order. -/
def updaters (ℓ : Loc) (h : List (Event τ W)) (ep : ℕ) : List Txn :=
  (List.range ep).filterMap (updater ℓ h)

theorem updaters_succ {ℓ : Loc} {h : List (Event τ W)} {ep : ℕ} :
    updaters ℓ h (ep + 1) = updaters ℓ h ep ++ (updater ℓ h ep).toList := by
  rw [updaters, List.range_succ, List.filterMap_append, ← updaters]
  cases hu : updater ℓ h ep <;> simp [hu]

theorem updaters_mono {ℓ : Loc} {h : List (Event τ W)} {j k : ℕ} (hjk : j ≤ k) :
    (updaters ℓ h j).length ≤ (updaters ℓ h k).length :=
  ((List.range_sublist.mpr hjk).filterMap _).length_le

theorem pairwise_updaters {ℓ : Loc} {h : List (Event τ W)} {ep : ℕ} :
    (updaters ℓ h ep).Pairwise fun T U => T.epoch < U.epoch := by
  refine List.pairwise_filterMap.mpr (List.pairwise_lt_range.imp ?_)
  intro j k hlt T hT U hU
  rw [(updater_eq_some hT).2.1, (updater_eq_some hU).2.1]
  exact hlt

section

variable [Zero W] [Fintype τ] {h : List (Event τ W)} {s s₀ : State τ W} {ℓ : Loc}
  {f : Txn → W → W}

/-- A committed update wrote what its function makes of the value the epoch
started with, and nobody else of the epoch wrote the word. -/
theorem ReadModifyWrite.lastWrite_eq (hrmw : ReadModifyWrite f ℓ h) (hrest : s₀.AtRest)
    (hset : s₀.region.Settled ∅) (hr : Run State.step freesNothing s₀ h s) {T : Txn}
    (hT : Ended h T) (hro : flagOf T h ≠ some true) (htouch : touches T ℓ h = true) :
    lastWrite T ℓ h = some (f T (epochMem s₀.committed T.epoch h ℓ)) := by
  obtain ⟨hupd, hwrote⟩ := hrmw T hro htouch
  obtain ⟨v, hfirst, hlast⟩ := hupd.readsFirst
  obtain ⟨w₀, hw₀⟩ := hwrote hT
  obtain ⟨w, hw⟩ := lastIn_isSome hw₀
  rw [← lastIn_accesses, hw, hlast w hw, (consistent_accesses hrest hset hr T).readsFirst hfirst]

/-- **One epoch** changes the word by the function of one transaction at most. -/
theorem ReadModifyWrite.epochMem_succ (hrmw : ReadModifyWrite f ℓ h) (hrest : s₀.AtRest)
    (hset : s₀.region.Settled ∅) (hr : Run State.step freesNothing s₀ h s) {k : ℕ}
    (hge : s₀.epoch ≤ k) (hk : k < s.epoch) :
    epochMem s₀.committed (k + 1) h ℓ =
        (updater ℓ h k).toList.foldl (fun m T => f T m) (epochMem s₀.committed k h ℓ) ∧
      ∀ T, updater ℓ h k = some T ↔
        Ended h T ∧ T.epoch = k ∧ flagOf T h ≠ some true ∧ touches T ℓ h = true := by
  have hQ : ∀ (h : List (Event τ W)) (s : State τ W) e, freesNothing h s e → e.avoids ∅ :=
    fun _ _ _ => avoids_of_freesNothing
  have hi := Isolated.run hQ hrest hset hr
  have hwrites : ∀ {T}, Ended h T → T.epoch = k → flagOf T h ≠ some true →
      touches T ℓ h = true →
      lastWrite T ℓ h = some (f T (epochMem s₀.committed k h ℓ)) := by
    rintro T hT rfl hro htouch
    exact hrmw.lastWrite_eq hrest hset hr hT hro htouch
  have huniq : ∀ {T U v w}, Ended h T → T.epoch = k → lastWrite T ℓ h = some v → Ended h U →
      U.epoch = k → lastWrite U ℓ h = some w → T = U := fun hT hTep hTv hU hUep hUw =>
    hi.unique_writer (Set.notMem_empty _) (hTep.trans hUep.symm) (by omega) hT hTv hU hUw
  have hstart := DualStm.epochMem_succ (ℓ := ℓ) hQ hrest hset hr hge hk
  rcases hu : updater ℓ h k with _ | T
  · -- nobody updated the word, and nobody wrote it otherwise
    have hnone : ∀ {T}, Ended h T → T.epoch = k → flagOf T h ≠ some true →
        touches T ℓ h ≠ true := by
      intro T hT hep hro htouch
      have := List.find?_eq_none.mp hu T (mem_endedIn.mpr ⟨hT, hep⟩)
      simp [hro, htouch] at this
    refine ⟨?_, fun T => ⟨fun hT => (by cases hT), ?_⟩⟩
    · rw [hstart, committedWrite_eq_none]
      · rfl
      · intro U hU hep
        cases hw : lastWrite U ℓ h with
        | none => rfl
        | some w =>
          refine absurd (touches_of_lastWrite hw) (hnone hU hep ?_)
          intro hro
          rw [hi.writes.readOnly hro] at hw
          cases hw
    · rintro ⟨hT, hep, hro, htouch⟩
      exact absurd htouch (hnone hT hep hro)
  · obtain ⟨hT, hep, hro, htouch⟩ := updater_eq_some hu
    have hTw := hwrites hT hep hro htouch
    constructor
    · rw [hstart, committedWrite_eq_some hT hep hTw]
      · rfl
      · intro U w hU hUep hUw
        rw [huniq hU hUep hUw hT hep hTw, hTw] at hUw
        exact (Option.some.inj hUw).symm
    · intro U
      constructor
      · intro hTU
        obtain rfl := Option.some.inj hTU
        exact ⟨hT, hep, hro, htouch⟩
      · rintro ⟨hU, hUep, hUro, hUt⟩
        rw [huniq hT hep hTw hU hUep (hwrites hU hUep hUro hUt)]

omit [Fintype τ] in
theorem epochMem_start (hr : Run State.step freesNothing s₀ h s) :
    epochMem s₀.committed s₀.epoch h = s₀.committed := by
  have hmem : epochMem s₀.committed s₀.epoch (h ++ []) = epochMem s₀.committed s₀.epoch [] :=
    hr.epochMem_append (le_refl s₀.epoch)
  rwa [List.append_nil] at hmem

/-- No transaction of the run has ended in an epoch before it. -/
theorem updaters_start (hrest : s₀.AtRest) (hr : Run State.step freesNothing s₀ h s) :
    updaters ℓ h s₀.epoch = [] := by
  apply List.filterMap_eq_nil_iff.mpr
  intro j hj
  cases hu : updater ℓ h j with
  | none => rfl
  | some T =>
    obtain ⟨⟨b, hT⟩, hep, -⟩ := updater_eq_some hu
    have hge := hr.begun_ge ((Books.run hrest hr).ids.begun_of_left ⟨_, hT, b, rfl⟩)
    have hlt := List.mem_range.mp hj
    omega

/-- **Every epoch so far.** The functions of the committed updates, applied one
after the other. -/
theorem ReadModifyWrite.epochMem_eq (hrmw : ReadModifyWrite f ℓ h) (hrest : s₀.AtRest)
    (hset : s₀.region.Settled ∅) (hr : Run State.step freesNothing s₀ h s) {k : ℕ}
    (hge : s₀.epoch ≤ k) (hk : k ≤ s.epoch) :
    epochMem s₀.committed k h ℓ =
      (updaters ℓ h k).foldl (fun m T => f T m) (s₀.committed ℓ) := by
  induction k, hge using Nat.le_induction with
  | base =>
    rw [updaters_start hrest hr, epochMem_start hr]
    rfl
  | succ k hge ih =>
    rw [(hrmw.epochMem_succ hrest hset hr hge hk).1, updaters_succ, List.foldl_append,
      ih (Nat.le_of_succ_le hk)]

end

/-! ## One thread, epoch after epoch

Two transactions of one thread that follow one another are of different epochs, so the second
one reads what the first one left, or what came after it. -/

/-- A thread that has been in the current epoch is not let into it again. -/
def OncePerEpoch (h : List (Event τ W)) (g : Gate τ) : Prop :=
  ∀ t T, .began t T ∈ h → T.epoch = g.batcher.curEpoch → ∀ n, g.client t ≠ .woken n

theorem oncePerEpoch_gateMove {h : List (Event τ W)} {e : Event τ W} {g g' : Gate τ}
    (ho : OncePerEpoch h g) (hi : IdInv h g) (hm : GateMove g e g') :
    OncePerEpoch (e :: h) g' := by
  have hletIn : ∀ {b : Batcher} {t : τ}, b.curEpoch = g.batcher.curEpoch →
      OncePerEpoch (.began t ⟨g.batcher.curEpoch, g.batcher.txIdGenerator⟩ :: h)
        (Gate.letIn b g.client t) := by
    intro b t hcur u T hmem hep n
    rw [show (Gate.letIn b g.client t).batcher.curEpoch = b.curEpoch from rfl, hcur] at hep
    obtain rfl | hut := eq_or_ne u t
    · simp [Gate.letIn]
    · simp only [Gate.letIn, Function.update_of_ne hut]
      refine ho u T ((List.mem_cons.mp hmem).resolve_left fun heq => hut ?_) hep n
      injection heq
  intro u T hmem hep n
  cases hm with
  | quiet hb _ => exact ho u T ((began_mem_cons_of_none hb).mp hmem) hep n
  | @waits _ t hb _ _ _ =>
    obtain rfl | hut := eq_or_ne u t
    · simp [Gate.wait]
    · simp only [Gate.wait, Function.update_of_ne hut]
      exact ho u T ((began_mem_cons_of_none hb).mp hmem) hep n
  | opens _ _ => exact hletIn rfl u T hmem hep n
  | wakes _ => exact hletIn rfl u T hmem hep n
  | @leaves _ t id _ hb _ =>
    rw [began_mem_cons_of_none hb] at hmem
    by_cases hn : g.batcher.nRemaining = 1
    · -- nobody has been in the epoch that starts here
      rw [Gate.afterLeave_last hn] at hep
      simp only [prepareBatcherForNextEpoch] at hep
      rcases hi.begun_lt (mem_begun hmem) with hlt | ⟨heq, -⟩ <;> omega
    · rw [Gate.afterLeave_early hn] at hep ⊢
      obtain rfl | hut := eq_or_ne u t
      · simp
      · simp only [Function.update_of_ne hut]
        exact ho u T hmem hep n

variable [Zero W] [Fintype τ]

theorem OncePerEpoch.run {Q : Discipline (State τ W) (Event τ W)} {s₀ s : State τ W}
    {h : List (Event τ W)} (hrest : s₀.AtRest) (hr : Run State.step Q s₀ h s) :
    OncePerEpoch h s.gate := by
  induction hr with
  | start => exact fun t T hmem => by cases hmem
  | next hr hs _ ih =>
    exact oncePerEpoch_gateMove ih (Books.run hrest hr).ids (step_cases hs).gateMove

/-- The transactions of one thread run in later and later epochs. -/
theorem Run.began_lt {Q : Discipline (State τ W) (Event τ W)} {s₀ s : State τ W}
    {g g' : List (Event τ W)} {t : τ} {T T' : Txn} (hrest : s₀.AtRest)
    (hr : Run State.step Q s₀ (g' ++ .began t T' :: g) s) (hT : .began t T ∈ g) :
    T.epoch < T'.epoch := by
  obtain ⟨s₁, hr₁, -⟩ := hr.split
  obtain ⟨s₂, a, hr₂, hs, -⟩ := hr₁.last
  have hstep := step_cases hs
  have hb := Books.run hrest hr₂
  have ho := OncePerEpoch.run hrest hr₂
  rcases hb.ids.begun_lt (mem_begun hT) with hlt | ⟨heq, hid⟩
  · rw [hstep.began_epoch]
    exact hlt
  · exfalso
    have hm := hstep.gateMove
    generalize s₁.gate = g₁ at hm
    cases hm with
    | quiet hb _ => cases hb
    | waits hb _ _ _ => cases hb
    | opens _ hn =>
      have hidle := (hb.gate.idle hn).2
      have hin := hb.gate.inEpoch
      omega
    | wakes hc => exact ho t T hT heq _ hc
    | leaves _ hb _ => cases hb

/-! ## The law

The statements about the committed value, the decrements and the successive transactions of a
thread, put together for every run. -/

variable {s₀ s : State τ W} {h : List (Event τ W)} {ℓ : Loc} {f : Txn → W → W}

/-- Each committed decrement lowers the word by one. -/
theorem ReadModifyWrite.val_epochMem (hrmw : ReadModifyWrite f ℓ h) (hrest : s₀.AtRest)
    (hset : s₀.region.Settled ∅) (hr : Run State.step freesNothing s₀ h s) {val : W → ℤ}
    (hdec : ∀ T v, .read T ℓ v ∈ h → val (f T v) = val v - 1) {k : ℕ} (hge : s₀.epoch ≤ k)
    (hk : k ≤ s.epoch) :
    val (epochMem s₀.committed k h ℓ) = val (s₀.committed ℓ) - (updaters ℓ h k).length := by
  induction k, hge using Nat.le_induction with
  | base =>
    rw [updaters_start hrest hr, epochMem_start hr]
    simp
  | succ k hge ih =>
    have ih := ih (Nat.le_of_succ_le hk)
    rw [(hrmw.epochMem_succ hrest hset hr hge hk).1, updaters_succ, List.length_append]
    rcases hu : updater ℓ h k with _ | T
    · simpa using ih
    · -- the decrement is applied to the value it read
      obtain ⟨hT, rfl, hro, htouch⟩ := updater_eq_some hu
      obtain ⟨v, hfirst, -⟩ := (hrmw T hro htouch).1.readsFirst
      have hv := (consistent_accesses hrest hset hr T).readsFirst hfirst
      obtain ⟨pre, post, has, -⟩ := hfirst
      obtain ⟨g', g, rfl, -⟩ := exists_read_of_accesses has
      have hone := hdec T v (List.mem_append_right _ List.mem_cons_self)
      rw [← hv] at ih ⊢
      simp only [Option.toList_some, List.foldl_cons, List.foldl_nil, List.length_singleton]
      push_cast
      omega

/-- **No lost update.** The committed value of the word is the initial one with the
functions of exactly the transactions that left through `tm_end` applied one after the
other, in the order of their epochs, of which no two are the same. If each of them is a
decrement, the word is lowered by their number, and of two successive transactions of a
thread the second does not read more than the first. -/
def UpdatesApplied (f : Txn → W → W) (ℓ : Loc) (s₀ s : State τ W) (h : List (Event τ W)) : Prop :=
  ∃ order : List Txn, order.Pairwise (fun T U => T.epoch < U.epoch) ∧
    (∀ T, T ∈ order ↔ Ended h T ∧ T.epoch < s.epoch ∧ flagOf T h ≠ some true ∧
      touches T ℓ h = true) ∧
    s.committed ℓ = order.foldl (fun m T => f T m) (s₀.committed ℓ) ∧
    ∀ val : W → ℤ, (∀ T v, .read T ℓ v ∈ h → val (f T v) = val v - 1) →
      val (s.committed ℓ) = val (s₀.committed ℓ) - order.length ∧
      ∀ g g' t T T' v v', h = g' ++ .began t T' :: g → .began t T ∈ g →
        ReadsFirst (accesses T h) ℓ v → ReadsFirst (accesses T' h) ℓ v' → val v' ≤ val v

/-- In a run without `tm_free` whose read-write transactions read the word and then write
`f T` of it, no update is lost. -/
theorem ReadModifyWrite.updatesApplied (hrmw : ReadModifyWrite f ℓ h) (hrest : s₀.AtRest)
    (hset : s₀.region.Settled ∅) (hr : Run State.step freesNothing s₀ h s) :
    UpdatesApplied f ℓ s₀ s h := by
  have hQ : ∀ (h : List (Event τ W)) (s : State τ W) e, freesNothing h s e → e.avoids ∅ :=
    fun _ _ _ => avoids_of_freesNothing
  have hi := Isolated.run hQ hrest hset hr
  have hge : s₀.epoch ≤ s.epoch := hr.epoch_le
  have hmem : s.committed ℓ = epochMem s₀.committed s.epoch h ℓ := by
    rw [hi.committed (Set.notMem_empty _), hi.words.mem]
  refine ⟨updaters ℓ h s.epoch, pairwise_updaters, fun T => ?_, ?_, fun val hdec => ⟨?_, ?_⟩⟩
  · rw [updaters, List.mem_filterMap]
    constructor
    · rintro ⟨k, hk, hu⟩
      obtain ⟨hT, rfl, hro⟩ := updater_eq_some hu
      exact ⟨hT, List.mem_range.mp hk, hro⟩
    · rintro ⟨hT, hlt, hro⟩
      have hep := hr.begun_ge (hi.books.ids.begun_of_left (hasLeft_iff.mpr (.inl hT)))
      exact ⟨T.epoch, List.mem_range.mpr hlt,
        ((hrmw.epochMem_succ hrest hset hr hep hlt).2 T).mpr ⟨hT, rfl, hro⟩⟩
  · rw [hmem, hrmw.epochMem_eq hrest hset hr hge le_rfl]
  · rw [hmem, hrmw.val_epochMem hrest hset hr hdec hge le_rfl]
  · rintro g g' t T T' v v' rfl hT hv hv'
    have hlt := hr.began_lt hrest hT
    have hbegun : ∀ {U}, U ∈ begun (g' ++ .began t T' :: g) →
        s₀.epoch ≤ U.epoch ∧ U.epoch ≤ s.epoch := by
      intro U hU
      refine ⟨hr.begun_ge hU, ?_⟩
      rcases hi.books.ids.begun_lt hU with hlt | ⟨heq, -⟩
      · exact hlt.le
      · exact heq.le
    have hT := hbegun (mem_begun (List.mem_append_right _ (List.mem_cons_of_mem _ hT)))
    have hT' := hbegun (mem_begun (List.mem_append_right _ List.mem_cons_self))
    have hval := hrmw.val_epochMem hrest hset hr hdec hT.1 hT.2
    have hval' := hrmw.val_epochMem hrest hset hr hdec hT'.1 hT'.2
    -- the later epoch comes after as many decrements at least
    have hmono := updaters_mono (ℓ := ℓ) (h := g' ++ .began t T' :: g) hlt.le
    rw [(consistent_accesses hrest hset hr T).readsFirst hv, hval,
      (consistent_accesses hrest hset hr T').readsFirst hv', hval']
    omega

/-- A thread increments a word, in two transactions. -/
def twoUpdates : List (Event Bool ℕ) :=
  [.ended ⟨1, 0⟩ true, .writeDone ⟨1, 0⟩ 0 0, .wrote ⟨1, 0⟩ (0, 0) 2, .silent,
    .readDone ⟨1, 0⟩ 0 0 [(0, 1)], .read ⟨1, 0⟩ (0, 0) 1, .silent, .silent,
    .began true ⟨1, 0⟩, .called true false,
    .ended ⟨0, 0⟩ true, .writeDone ⟨0, 0⟩ 0 0, .wrote ⟨0, 0⟩ (0, 0) 1, .silent,
    .readDone ⟨0, 0⟩ 0 0 [(0, 0)], .read ⟨0, 0⟩ (0, 0) 0, .silent, .silent,
    .began true ⟨0, 0⟩, .called true false]

end DualStm
