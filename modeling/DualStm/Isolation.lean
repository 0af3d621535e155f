import DualStm.Shape

/-!
# Isolation of an epoch

The invariant behind all statements about runs without `tm_free`. Between two
commits every word of the region stands for its epoch-start value and the
private writes of the transactions of the epoch (`WordInv`); the epoch-start
value is what the history says was committed so far (`committedMem`), the
private writes are what it says is pending.

Two invariants, each kept by every step, on top of the books of the batcher and
the shape of the region: the writes of the history against the threads that made
them (`Writes`), and the words (`Words`).
-/

namespace DualStm

variable {τ W : Type}

/-! ## Writes and their authors

The first to write a word in an epoch is its author, and until the epoch ends or the author
aborts nobody else writes it. `Writes` says so of the history; each kind of step is a lemma. -/

/-- The transaction is in the loops of its abort, at word `j` of segment `i`. -/
def Aborting (s : State τ W) (T : Txn) (i j : ℕ) : Prop :=
  ∃ t, s.client t = .inside T.id ∧ T.epoch = s.epoch ∧ (s.call t).cursor = some (i, j)

/-- The thread is in the loop of `tm_write`. -/
def Call.isWriting : Call W → Bool
  | .writing _ _ _ _ _ _ => true
  | _ => false

theorem Call.cursor_of_isWriting {c : Call W} (hc : c.isWriting = true) : c.cursor = none := by
  cases c with
  | aborting => cases hc
  | _ => rfl

/-- The transaction of a thread inside. -/
theorem State.txn_eq {s : State τ W} {t : τ} {id : ℕ} {T : Txn} (hc : s.client t = .inside id)
    (hu : s.client t = .inside T.id) (hep : T.epoch = s.epoch) : s.txn id = T := by
  rw [hc] at hu
  injection hu with hu
  rw [hu, State.txn, ← hep]

namespace Aborting

variable {s s' : State τ W} {t : τ} {T : Txn} {i j : ℕ}

/-- An abort is where it was while another thread moves. -/
theorem others (ha : Aborting s T i j) (hep : s'.epoch = s.epoch)
    (ht : s.client t ≠ .inside T.id ∨ (s.call t).cursor = none)
    (hother : ∀ u, u ≠ t → s'.client u = s.client u ∧ s'.call u = s.call u) :
    Aborting s' T i j := by
  obtain ⟨u, hu, hTep, hcur⟩ := ha
  have hut : u ≠ t := by
    rintro rfl
    rcases ht with ht | ht
    · exact ht hu
    · rw [ht] at hcur
      cases hcur
  obtain ⟨hcl, hcall⟩ := hother u hut
  exact ⟨u, hcl.trans hu, hTep.trans hep.symm, by rw [hcall]; exact hcur⟩

theorem of_setGate {g : Gate τ} (ha : Aborting (s.setGate g) T i j)
    (ht : g.client t ≠ .inside T.id ∨ (s.call t).cursor = none)
    (hep : g.batcher.curEpoch = s.epoch) (hother : ∀ u, u ≠ t → g.client u = s.client u) :
    Aborting s T i j :=
  ha.others hep.symm ht fun u hut => ⟨(hother u hut).symm, rfl⟩

variable [DecidableEq τ]

/-- A thread moves on inside the library: one that aborts to another word or segment. -/
theorem setCall {r : Region W} {c : Call W} (ha : Aborting s T i j)
    (hkeep : (s.call t).cursor = none ∨ c.cursor ≠ none) :
    ∃ i' j', Aborting ((s.setRegion r).setCall t c) T i' j' := by
  obtain ⟨u, hu, hep, hcur⟩ := ha
  obtain rfl | hut := eq_or_ne u t
  · rcases hkeep with hk | hk
    · rw [hk] at hcur
      cases hcur
    · obtain ⟨⟨i', j'⟩, hc'⟩ := Option.ne_none_iff_exists'.mp hk
      exact ⟨i', j', u, hu, hep, by rw [State.setCall_call, if_pos rfl, hc']⟩
  · exact ⟨i, j, u, hu, hep, by rw [State.setCall_call, if_neg hut]; exact hcur⟩

/-- Who is in an abort after a thread moved on. -/
theorem of_setCall {r : Region W} {c : Call W}
    (ha : Aborting ((s.setRegion r).setCall t c) T i j) :
    (∃ u, u ≠ t ∧ s.client u = .inside T.id ∧ T.epoch = s.epoch ∧
      (s.call u).cursor = some (i, j)) ∨
    s.client t = .inside T.id ∧ T.epoch = s.epoch ∧ c.cursor = some (i, j) := by
  obtain ⟨u, hu, hep, hcur⟩ := ha
  rw [State.setCall_call] at hcur
  split at hcur
  · rename_i hut
    exact .inr ⟨hut ▸ hu, hep, hcur⟩
  · rename_i hut
    exact .inl ⟨u, hut, hu, hep, hcur⟩

/-- Who is in an abort after a thread has left was in it before. -/
theorem of_leave [Fintype τ] {id : ℕ} (ha : Aborting s' T i j) (hg : GateInv s.gate)
    (hc : s.client t = .inside id) (hth : s'.thread = (s.setCall t .rest).thread)
    (hgate : s'.gate = s.gate.afterLeave t) : Aborting s T i j := by
  obtain ⟨u, hu, hTep, hcur⟩ := ha
  rw [State.client, hgate] at hu
  obtain ⟨hut, hu', hep⟩ := hg.inside_of_afterLeave hc hu
  rw [State.epoch, hgate] at hTep
  rw [State.call, hth, State.setCall_thread_ne _ _ _ _ hut] at hcur
  exact ⟨u, hu', hTep.trans hep, hcur⟩

end Aborting

/-- The loops of an abort at `(i, j)` have passed the word. -/
def Passed (i j : ℕ) (ℓ : Loc) : Prop := ℓ.1 < i ∨ ℓ.1 = i ∧ ℓ.2 < j

/-- The writes of a history against the threads that made them. -/
structure Writes [DecidableEq τ] (h : List (Event τ W)) (s : State τ W) : Prop where
  /-- only transactions write -/
  begun : ∀ {T ℓ v}, lastWrite T ℓ h = some v → T ∈ begun h
  /-- only words of the region are written -/
  valid : ∀ {T ℓ v}, lastWrite T ℓ h = some v → s.Valid ℓ
  /-- only an abort releases words -/
  released : ∀ {T ℓ}, .released T ℓ ∈ h → Aborted h T ∨ ∃ i j, Aborting s T i j
  /-- what an abort has passed is released -/
  passed : ∀ {T i j ℓ}, Aborting s T i j → Passed i j ℓ → pending T ℓ h = none
  /-- an aborted transaction leaves nothing -/
  aborted : ∀ {T ℓ}, Aborted h T → pending T ℓ h = none
  /-- a transaction leaves once -/
  once : ∀ {T}, Ended h T → ¬ Aborted h T
  /-- a read-only transaction writes nothing -/
  readOnly : ∀ {T ℓ}, flagOf T h = some true → lastWrite T ℓ h = none
  /-- a read-only transaction is not inside `tm_write` -/
  writer : ∀ {t}, (s.call t).isWriting = true → (s.thread t).isRo = false

namespace Writes

variable [DecidableEq τ] {h : List (Event τ W)} {s s' : State τ W} {e : Event τ W}

/-- A transaction that is not on its way out has all its writes pending. -/
theorem pending_eq (hw : Writes h s) {T : Txn} {ℓ : Loc} (hna : ¬ Aborted h T)
    (hni : ∀ i j, ¬ Aborting s T i j) : pending T ℓ h = lastWrite T ℓ h := by
  apply pending_eq_lastWrite
  intro m hm
  rcases hw.released hm with ha | ⟨i, j, hi⟩
  · exact hna ha
  · exact hni i j hi

theorem pending_none (hw : Writes h s) {T : Txn} {ℓ : Loc} (hn : T ∉ DualStm.begun h) :
    pending T ℓ h = none := by
  rcases hp : pending T ℓ h with _ | v
  · rfl
  · exact absurd (hw.begun (lastWrite_of_pending hp)) hn

/-- A step that writes and releases nothing and lets nobody leave. Whoever is in
an abort was there before, and no further. -/
theorem plain (hw : Writes h s) (hpl : e.isPlain = true) (hl : e.left? = none)
    (hg : s.region.Grows s'.region)
    (hstay : ∀ {T i j}, Aborting s T i j → ∃ i' j', Aborting s' T i' j')
    (hcome : ∀ {T i j ℓ}, Aborting s' T i j → s.Valid ℓ → Passed i j ℓ →
      ∃ i' j', Aborting s T i' j' ∧ Passed i' j' ℓ)
    (hro : ∀ {T}, flagOf T (e :: h) = flagOf T h ∨ T ∉ DualStm.begun h)
    (hwr : ∀ {t}, (s'.call t).isWriting = true → (s'.thread t).isRo = false) :
    Writes (e :: h) s' := by
  have hlw : ∀ {T ℓ}, lastWrite T ℓ (e :: h) = lastWrite T ℓ h := lastWrite_cons_plain hpl
  have hpe : ∀ {T ℓ}, pending T ℓ (e :: h) = pending T ℓ h := pending_cons_plain hpl
  have hab : ∀ {T}, Aborted (e :: h) T ↔ Aborted h T := aborted_cons_of_none hl
  refine ⟨fun {T ℓ v} hv => ?_, fun {T ℓ v} hv => ?_, fun {T ℓ} hm => ?_,
    fun {T i j ℓ} hi hp => ?_, fun {T ℓ} ha => ?_, fun {T} hT => ?_,
    fun {T ℓ} hr => ?_, hwr⟩
  · rw [hlw] at hv
    exact begun_subset_cons (hw.begun hv)
  · rw [hlw] at hv
    exact (hw.valid hv).grows hg
  · rw [hab]
    have hm : .released T ℓ ∈ h := by
      rcases List.mem_cons.mp hm with rfl | hm
      · cases hpl
      · exact hm
    rcases hw.released hm with ha | ⟨i, j, hi⟩
    · exact .inl ha
    · exact .inr (hstay hi)
  · rw [hpe]
    rcases hv : lastWrite T ℓ h with _ | v
    · rcases hp' : pending T ℓ h with _ | v
      · rfl
      · rw [lastWrite_of_pending hp'] at hv
        cases hv
    · obtain ⟨i', j', hi', hp'⟩ := hcome hi (hw.valid hv) hp
      exact hw.passed hi' hp'
  · rw [hpe]
    exact hw.aborted (hab.mp ha)
  · rw [hab]
    exact hw.once ((ended_cons_of_none hl).mp hT)
  · rw [hlw]
    rcases hro with hfl | hn
    · exact hw.readOnly (hfl ▸ hr)
    · rcases hv : lastWrite T ℓ h with _ | v
      · rfl
      · exact absurd (hw.begun hv) hn

/-- A thread moves on inside its transaction, writing and releasing nothing. -/
theorem setCall (hw : Writes h s) {r : Region W} {t : τ} {c : Call W}
    (hpl : e.isPlain = true) (hb : e.begun? = none) (hl : e.left? = none)
    (hg : s.region.Grows r)
    (hcur : ∀ {i j ℓ}, c.cursor = some (i, j) → s.Valid ℓ → Passed i j ℓ →
      ∃ i' j', (s.call t).cursor = some (i', j') ∧ Passed i' j' ℓ)
    (hkeep : (s.call t).cursor = none ∨ c.cursor ≠ none)
    (hwr : c.isWriting = true → (s.thread t).isRo = false) :
    Writes (e :: h) ((s.setRegion r).setCall t c) := by
  refine hw.plain hpl hl hg (fun {T i j} ha => ?_) (fun {T i j ℓ} ha hv hp => ?_)
    (.inl (flagOf_cons_of_none hb _)) (fun {u} hu => ?_)
  · exact ha.setCall hkeep
  · rcases ha.of_setCall with ⟨u, -, hu, hep, hcu⟩ | ⟨hu, hep, hcu⟩
    · exact ⟨i, j, ⟨u, hu, hep, hcu⟩, hp⟩
    · obtain ⟨i', j', hc', hp'⟩ := hcur hcu hv hp
      exact ⟨i', j', ⟨t, hu, hep, hc'⟩, hp'⟩
  · rw [State.setCall_isRo]
    rw [State.setCall_call] at hu
    split at hu
    · rename_i hut
      subst hut
      exact hwr hu
    · exact hw.writer hu

/-- A thread that starts to abort keeps the authors: its writes are as pending as before. -/
theorem abort (hw : Writes h s) {r : Region W} {t : τ} (hpl : e.isPlain = true)
    (hb : e.begun? = none) (hl : e.left? = none) (hg : s.region.Grows r)
    (hr : (s.call t).cursor = none) :
    Writes (e :: h) ((s.setRegion r).setCall t (.aborting 0 0)) := by
  refine hw.setCall hpl hb hl hg (fun {i j ℓ} hcu _ hp => ?_) (.inl hr) (by simp [Call.isWriting])
  obtain ⟨rfl, rfl⟩ := Prod.mk.inj (Option.some.inj hcu)
  simp [Passed] at hp

variable [Fintype τ]

/-- The id of a thread inside is its own. -/
theorem txn_ne (hb : Books h s) {t u : τ} {id k : ℕ} (hc : s.client t = .inside id)
    (hu : s.client u = .inside k) (hut : u ≠ t) : s.txn k ≠ s.txn id := by
  intro heq
  injection heq with _ heq
  exact hut (hb.gate.id_inj hu (heq ▸ hc))

/-- A thread that writes a word keeps the authors: it is the author of this word, or it becomes
it. -/
theorem wrote (hw : Writes h s) (hb : Books h s) {r : Region W} {t : τ} {c : Call W} {id : ℕ}
    {m : Loc} {v : W} (hc : s.client t = .inside id) (hr : (s.call t).isWriting = true)
    (hg : s.region.Grows r) (hm : s.Valid m) (hcur : c.cursor = none) :
    Writes (.wrote (s.txn id) m v :: h) ((s.setRegion r).setCall t c) := by
  have hro := hw.writer hr
  have hin := (hb.ids.holds.mp hc)
  -- the writer is in no abort, and the others have their own names
  have hne : ∀ {T i j}, Aborting ((s.setRegion r).setCall t c) T i j →
      Aborting s T i j ∧ s.txn id ≠ T := by
    intro T i j ha
    rcases ha.of_setCall with ⟨u, hut, hu, hep, hcu⟩ | ⟨-, -, hcu⟩
    · refine ⟨⟨u, hu, hep, hcu⟩, ?_⟩
      rintro rfl
      exact txn_ne hb hc hu hut rfl
    · rw [hcur] at hcu
      cases hcu
  refine ⟨fun {T ℓ w} hv => ?_, fun {T ℓ w} hv => ?_, fun {T ℓ} hrel => ?_,
    fun {T i j ℓ} ha hp => ?_, fun {T ℓ} ha => ?_, fun {T} hT => ?_,
    fun {T ℓ} hr => ?_, fun {u} hu => ?_⟩
  · by_cases hT : s.txn id = T ∧ m = ℓ
    · obtain ⟨rfl, rfl⟩ := hT
      exact begun_subset_cons (mem_begun hin.1)
    · rw [lastWrite_wrote_ne hT] at hv
      exact begun_subset_cons (hw.begun hv)
  · apply State.Valid.grows (s := s) hg
    by_cases hT : s.txn id = T ∧ m = ℓ
    · obtain ⟨rfl, rfl⟩ := hT
      exact hm
    · rw [lastWrite_wrote_ne hT] at hv
      exact hw.valid hv
  · rcases List.mem_cons.mp hrel with heq | hrel
    · cases heq
    · rw [aborted_cons_of_none rfl]
      rcases hw.released hrel with ha | ⟨i, j, u, hu, hep, hcu⟩
      · exact .inl ha
      · refine .inr ⟨i, j, u, hu, hep, ?_⟩
        rw [State.setCall_call, if_neg]
        · exact hcu
        · rintro rfl
          rw [Call.cursor_of_isWriting hr] at hcu
          cases hcu
  · obtain ⟨ha, hTne⟩ := hne ha
    rw [pending_wrote_ne fun h => hTne h.1]
    exact hw.passed ha hp
  · rw [aborted_cons_of_none rfl] at ha
    rw [pending_wrote_ne]
    · exact hw.aborted ha
    · rintro ⟨rfl, -⟩
      exact hin.2 (hasLeft_iff.mpr (.inr ha))
  · rw [aborted_cons_of_none rfl]
    exact hw.once ((ended_cons_of_none rfl).mp hT)
  · rw [flagOf_cons_of_none rfl] at hr
    rw [lastWrite_wrote_ne]
    · exact hw.readOnly hr
    · rintro ⟨rfl, -⟩
      rw [hb.flags hc, hro] at hr
      cases hr
  · rw [State.setCall_isRo]
    rw [State.setCall_call] at hu
    split at hu
    · rename_i hut
      rw [hut]
      exact hro
    · exact hw.writer hu

/-- An abort that passes a word keeps the authors: the word is not its transaction's any more. -/
theorem release (hw : Writes h s) (hb : Books h s) {r : Region W} {t : τ} {id i j : ℕ}
    (hc : s.client t = .inside id) (hr : s.call t = .aborting i j)
    (hg : s.region.Grows r) :
    Writes (.released (s.txn id) (i, j) :: h)
      ((s.setRegion r).setCall t (.aborting i (j + 1))) := by
  have hin := (hb.ids.holds.mp hc)
  have hself : Aborting s (s.txn id) i j := ⟨t, hc, rfl, by rw [hr]; rfl⟩
  have hpe : ∀ {T ℓ}, pending T ℓ h = none →
      pending T ℓ (.released (s.txn id) (i, j) :: h) = none := by
    intro T ℓ hp
    by_cases hT : s.txn id = T ∧ (i, j) = ℓ
    · rw [pending, if_pos hT]
    · rw [pending_released_ne hT, hp]
  refine ⟨fun {T ℓ v} hv => begun_subset_cons (hw.begun hv),
    fun {T ℓ v} hv => (hw.valid hv).grows hg, fun {T ℓ} hrel => ?_,
    fun {T i' j' ℓ} ha hp => ?_, fun {T ℓ} ha => ?_, fun {T} hT => ?_,
    fun {T ℓ} hr => hw.readOnly hr, fun {u} hu => ?_⟩
  · rw [aborted_cons_of_none rfl]
    have hcur : (Call.aborting i (j + 1) : Call W).cursor ≠ none := by rintro ⟨⟩
    rcases List.mem_cons.mp hrel with heq | hrel
    · injection heq with heq _
      exact .inr ((heq ▸ hself).setCall (.inr hcur))
    · rcases hw.released hrel with ha | ⟨i', j', ha⟩
      · exact .inl ha
      · exact .inr (ha.setCall (.inr hcur))
  · rcases ha.of_setCall with ⟨u, -, hu, hep, hcu⟩ | ⟨hu, hep, hcu⟩
    · exact hpe (hw.passed ⟨u, hu, hep, hcu⟩ hp)
    · obtain ⟨rfl, rfl⟩ := Prod.mk.inj (Option.some.inj hcu)
      obtain rfl := State.txn_eq hc hu hep
      by_cases hℓ : (i, j) = ℓ
      · rw [hℓ]
        exact pending_released
      · refine hpe (hw.passed hself ?_)
        rcases hp with hlt | ⟨heq, hlt⟩
        · exact .inl hlt
        · refine .inr ⟨heq, lt_of_le_of_ne (Nat.lt_succ_iff.mp hlt) ?_⟩
          rintro rfl
          exact hℓ (by rw [← heq])
  · exact hpe (hw.aborted ((aborted_cons_of_none rfl).mp ha))
  · rw [aborted_cons_of_none rfl]
    exact hw.once ((ended_cons_of_none rfl).mp hT)
  · rw [State.setCall_isRo]
    rw [State.setCall_call] at hu
    split at hu
    · cases hu
    · exact hw.writer hu

/-- A transaction that leaves keeps the authors. -/
theorem leave (hw : Writes h s) (hb : Books h s) {r : Region W} {t : τ} {id : ℕ}
    {fin last : Bool} (hc : s.client t = .inside id)
    (hr : if fin = true then s.call t = .rest else
      ∃ i j, s.call t = .aborting i j ∧ ¬ i < s.region.nSegments)
    (hg : s.region.Grows r) :
    Writes ((if fin = true then .ended (s.txn id) last else .aborted (s.txn id) last) :: h)
      (((s.setCall t .rest).setGate (s.gate.afterLeave t)).setRegion r) := by
  set e : Event τ W :=
    if fin = true then .ended (s.txn id) last else .aborted (s.txn id) last with he
  set s' := ((s.setCall t .rest).setGate (s.gate.afterLeave t)).setRegion r with hs'
  have hin := hb.ids.holds.mp hc
  have hpl : e.isPlain = true := by
    rw [he]
    split <;> rfl
  have hended : ∀ {T}, Ended (e :: h) T ↔ fin = true ∧ T = s.txn id ∨ Ended h T := by
    intro T
    cases fin <;> simp [he, Ended, exists_or, eq_comm]
  have haborted : ∀ {T}, Aborted (e :: h) T ↔ fin = false ∧ T = s.txn id ∨ Aborted h T := by
    intro T
    cases fin <;> simp [he, Aborted, exists_or, eq_comm]
  have hlw : ∀ {T ℓ}, lastWrite T ℓ (e :: h) = lastWrite T ℓ h := lastWrite_cons_plain hpl
  have hpe : ∀ {T ℓ}, pending T ℓ (e :: h) = pending T ℓ h := pending_cons_plain hpl
  have hcall : ∀ {u}, u ≠ t → s'.call u = s.call u := by
    intro u hut
    rw [State.call, hs', State.setRegion_thread, State.setGate_thread,
      State.setCall_thread_ne _ _ _ _ hut]
  have hself : s'.call t = .rest := State.setCall_call_self ..
  have hro : ∀ u, (s'.thread u).isRo = (s.thread u).isRo := fun u => State.setCall_isRo ..
  have hforth : ∀ {u k}, u ≠ t → s.client u = .inside k →
      s'.client u = .inside k ∧ s'.epoch = s.epoch := hb.gate.afterLeave_inside hc
  refine ⟨fun {T ℓ v} hv => ?_, fun {T ℓ v} hv => ?_, fun {T ℓ} hrel => ?_,
    fun {T i j ℓ} ha hp => ?_, fun {T ℓ} ha => ?_, fun {T} hT ha => ?_,
    fun {T ℓ} hr => ?_, fun {u} hu => ?_⟩
  · rw [hlw] at hv
    exact begun_subset_cons (hw.begun hv)
  · rw [hlw] at hv
    exact State.Valid.grows (s := s) hg (hw.valid hv)
  · have hrel : .released T ℓ ∈ h := by
      rcases List.mem_cons.mp hrel with heq | hrel
      · rw [← heq] at hpl
        cases hpl
      · exact hrel
    rw [haborted]
    rcases hw.released hrel with ha | ⟨i, j, u, hu, hep, hcu⟩
    · exact .inl (.inr ha)
    · by_cases hut : u = t
      · -- the leaver was in its abort
        subst hut
        rcases fin with _ | _
        · exact .inl (.inl ⟨rfl, (State.txn_eq hc hu hep).symm⟩)
        · rw [show s.call u = .rest from hr] at hcu
          cases hcu
      · obtain ⟨hu', hep'⟩ := hforth hut hu
        exact .inr ⟨i, j, u, hu', hep.trans hep'.symm, by rw [hcall hut]; exact hcu⟩
  · rw [hpe]
    exact hw.passed (ha.of_leave hb.gate hc rfl rfl) hp
  · rw [hpe]
    rcases haborted.mp ha with ⟨hfin, rfl⟩ | ha
    · -- the abort has passed every word
      rw [hfin] at hr
      obtain ⟨i, j, hcall, hi⟩ := hr
      rcases hp : pending (s.txn id) ℓ h with _ | v
      · rfl
      · rw [hw.passed ⟨t, hc, rfl, by rw [hcall]; rfl⟩ (.inl ?_)] at hp
        · cases hp
        · have := (hw.valid (lastWrite_of_pending hp)).1
          omega
    · exact hw.aborted ha
  · rcases hended.mp hT with ⟨hfin, rfl⟩ | hT
    · rcases haborted.mp ha with ⟨hfin', -⟩ | ha
      · rw [hfin] at hfin'
        cases hfin'
      · exact hin.2 (hasLeft_iff.mpr (.inr ha))
    · rcases haborted.mp ha with ⟨-, rfl⟩ | ha
      · exact hin.2 (hasLeft_iff.mpr (.inl hT))
      · exact hw.once hT ha
  · rw [hlw]
    rw [flagOf_cons_of_none (by rw [he]; split <;> rfl)] at hr
    exact hw.readOnly hr
  · rw [hro]
    obtain rfl | hut := eq_or_ne u t
    · rw [hself] at hu
      cases hu
    · rw [hcall hut] at hu
      exact hw.writer hu

end Writes

variable [DecidableEq τ] [Fintype τ]

/-- Taking an id changes nothing for the others, and its holder is new. -/
theorem Writes.letIn {h : List (Event τ W)} {s : State τ W} (hw : Writes h s)
    (hb : Books h s) {b : Batcher} {t : τ} (hr : s.call t = .beginning)
    (hcur : b.curEpoch = s.epoch) (hc : ∀ id, s.client t ≠ .inside id) :
    Writes (.began t (s.txn s.gate.batcher.txIdGenerator) :: h)
      (s.setGate (Gate.letIn b s.gate.client t)) := by
  set s' := s.setGate (Gate.letIn b s.gate.client t) with hs'
  have hep : s'.epoch = s.epoch := hcur
  have hold : ∀ {u}, u ≠ t → s'.client u = s.client u := fun hut => by
    simp only [hs', State.client, State.setGate_gate, Gate.letIn, Function.update_of_ne hut]
  refine hw.plain rfl rfl (.refl _) (fun {T i j} ha => ?_) (fun {T i j ℓ} ha hv hp => ?_)
    (fun {T} => ?_) (fun hu => hw.writer hu)
  · exact ⟨i, j, ha.others hep (.inl (hc _)) fun u hut => ⟨hold hut, rfl⟩⟩
  · have hcall : (s'.call t).cursor = none := by
      rw [show s'.call t = .beginning from hr]
      rfl
    exact ⟨i, j, ha.others hep.symm (.inr hcall) fun u hut => ⟨(hold hut).symm, rfl⟩, hp⟩
  · by_cases hT : s.txn s.gate.batcher.txIdGenerator = T
    · right
      rw [← hT]
      intro hmem
      rcases hb.ids.begun_lt hmem with hlt | ⟨-, hlt⟩
      · exact absurd hlt (lt_irrefl _)
      · exact absurd hlt (lt_irrefl _)
    · exact .inl (flagOf_began_ne hT)

omit [Fintype τ] in
/-- A thread outside that moves on keeps the authors. -/
theorem Writes.outside {h : List (Event τ W)} {s s' : State τ W} {e : Event τ W}
    (hw : Writes h s) {t : τ} (hpl : e.isPlain = true) (hb : e.begun? = none)
    (hl : e.left? = none)
    (hc : s.client t = .outside) (hregion : s'.region = s.region) (hep : s'.epoch = s.epoch)
    (hother : ∀ u, u ≠ t → s'.client u = s.client u ∧ s'.thread u = s.thread u)
    (hself : ∀ id, s'.client t ≠ .inside id) (hcall : s'.call t = .beginning) :
    Writes (e :: h) s' := by
  refine hw.plain hpl hl (hregion ▸ .refl _) (fun {T i j} ha => ?_)
    (fun {T i j ℓ} ha hv hp => ?_) (.inl (flagOf_cons_of_none hb _)) (fun {u} hu => ?_)
  · refine ⟨i, j, ha.others hep (.inl (by rw [hc]; rintro ⟨⟩)) ?_⟩
    intro u hut
    obtain ⟨hcl, hth⟩ := hother u hut
    exact ⟨hcl, by rw [State.call, hth, State.call]⟩
  · refine ⟨i, j, ha.others hep.symm (.inl (hself _)) ?_, hp⟩
    intro u hut
    obtain ⟨hcl, hth⟩ := hother u hut
    exact ⟨hcl.symm, by rw [State.call, ← hth, State.call]⟩
  · have hut : u ≠ t := by
      rintro rfl
      rw [hcall] at hu
      cases hu
    obtain ⟨-, hth⟩ := hother u hut
    rw [hth]
    rw [State.call, hth] at hu
    exact hw.writer hu

/-- Every step keeps the writes and their authors in line. -/
theorem writes_step [Zero W] {dead : Set ℕ} {h : List (Event τ W)} {s s' : State τ W}
    {e : Event τ W} (hw : Writes h s) (hb : Books h s) (hi : InRange s)
    (hsh : Shape dead s.region) (hs : Step s e s') (he : e.avoids dead) :
    Writes (e :: h) s' := by
  have hg : s.region.Grows s'.region := (shape_step hsh hs he).2
  cases hs with
  | @called t isRo hc hr =>
    refine hw.outside (t := t) rfl rfl rfl hc rfl rfl (fun u hut => ⟨rfl, ?_⟩) (fun id => ?_) ?_
    · exact Function.update_of_ne hut _ _
    · rw [show s.client t = _ from hc]
      simp
    · simp [State.call]
  | opened hc hr hn => exact hw.letIn hb hr rfl fun id => by rw [hc]; simp
  | @waiting t hc hr hn =>
    refine hw.outside (t := t) rfl rfl rfl hc rfl rfl (fun u hut => ⟨?_, rfl⟩) (fun id => ?_) hr
    · simp only [State.client, State.setGate_gate, Gate.wait, Function.update_of_ne hut]
    · simp [State.client, Gate.wait]
  | woke hc => exact hw.letIn hb (hb.threads.woken hc) rfl fun id => by rw [hc]; simp
  | flagged hc hr =>
    exact hw.setCall rfl rfl rfl hg (by simp [Call.cursor]) (.inl (by rw [hr]; rfl))
      (by simp [Call.isWriting])
  | reading hc hr hrange =>
    exact hw.setCall (r := s.region) rfl rfl rfl hg (by simp [Call.cursor])
      (.inl (by rw [hr]; rfl)) (by simp [Call.isWriting])
  | writing hc hr hrange hro =>
    exact hw.setCall (r := s.region) rfl rfl rfl hg (by simp [Call.cursor])
      (.inl (by rw [hr]; rfl)) fun _ => hro
  | read hc hr hidx hv =>
    exact hw.setCall rfl rfl rfl hg (by simp [Call.cursor]) (.inl (by rw [hr]; rfl))
      (by simp [Call.isWriting])
  | readRefused hc hr hidx hv => exact hw.abort rfl rfl rfl hg (by rw [hr]; rfl)
  | readDone hc hr hidx =>
    exact hw.setCall (r := s.region) rfl rfl rfl hg (by simp [Call.cursor])
      (.inl (by rw [hr]; rfl)) (by simp [Call.isWriting])
  | @wrote t id seg start idx stop source off segment' hc hr hidx hv =>
    refine hw.wrote hb hc (by rw [hr]; rfl) hg ?_ rfl
    have hwin : (s.call t).window = some (seg, stop) := by rw [hr]; rfl
    exact (hi hwin).valid hidx
  | writeRefused hc hr hidx hv => exact hw.abort (r := s.region) rfl rfl rfl hg (by rw [hr]; rfl)
  | writeDone hc hr hidx =>
    exact hw.setCall (r := s.region) rfl rfl rfl hg (by simp [Call.cursor])
      (.inl (by rw [hr]; rfl)) (by simp [Call.isWriting])
  | alloced hc hr hro =>
    exact hw.plain rfl rfl hg (fun ha => ⟨_, _, ha⟩) (fun ha _ hp => ⟨_, _, ha, hp⟩)
      (.inl rfl) hw.writer
  | freed => exact absurd he id
  | freeRefused => exact absurd he id
  | released hc hr hlt hj => exact hw.release hb hc hr hg
  | @undone t id i j hc hr hlt hj =>
    refine hw.setCall rfl rfl rfl hg (fun {i' j' ℓ} hcu hv hp => ?_) (.inr (by simp [Call.cursor]))
      (by simp [Call.isWriting])
    -- the word loop ended at the length of the segment
    obtain ⟨rfl, rfl⟩ := Prod.mk.inj (Option.some.inj hcu)
    refine ⟨i, j, by rw [hr]; rfl, ?_⟩
    rcases hp with hp | ⟨-, hp⟩
    · rcases Nat.lt_succ_iff_lt_or_eq.mp hp with hlt' | rfl
      · exact .inl hlt'
      · exact .inr ⟨rfl, hv.2.trans_le (not_lt.mp hj)⟩
    · exact absurd hp (Nat.not_lt_zero _)
  | left hc hr hn => exact hw.leave hb (r := s.region) hc hr hg
  | closed hc hr hn hcommit => exact hw.leave hb hc hr hg

/-- What a transaction of a past epoch has pending is what it committed. -/
theorem Writes.past {h : List (Event τ W)} {s : State τ W} (hw : Writes h s)
    (hb : Books h s) {T : Txn} (hT : T.epoch < s.epoch) {ℓ : Loc} {v : W} :
    pending T ℓ h = some v ↔ Ended h T ∧ lastWrite T ℓ h = some v := by
  constructor
  · intro hp
    have hlw := lastWrite_of_pending hp
    rcases hasLeft_iff.mp (hb.ids.left_of_lt (hw.begun hlw) hT) with hE | hA
    · exact ⟨hE, hlw⟩
    · rw [hw.aborted hA] at hp
      cases hp
  · rintro ⟨hE, hlw⟩
    rw [hw.pending_eq (hw.once hE)]
    · exact hlw
    · rintro i j ⟨u, -, hep, -⟩
      exact hT.ne hep

/-! ## The words

The region against the history: the copy to read from has the committed value of a word, and
the other copy what the author has written in this epoch. -/

/-- What a region holds at a location. -/
def Region.word (r : Region W) (ℓ : Loc) : Word W := (r.segments ℓ.1).word ℓ.2

/-- Every word stands for the committed memory and the pending writes. -/
structure Words [Zero W] (m₀ : Loc → W) (dead : Set ℕ) (h : List (Event τ W))
    (s : State τ W) : Prop where
  /-- the words -/
  word : ∀ {ℓ}, s.Valid ℓ → ℓ.1 ∉ dead →
    WordInv (s.region.word ℓ) (committedMem m₀ h ℓ) fun id => pending (s.txn id) ℓ h
  /-- a word that is not in use reads as zero -/
  outside : ∀ {ℓ}, ¬ s.Valid ℓ → committedMem m₀ h ℓ = 0
  /-- the epoch started from what is committed -/
  mem : epochMem m₀ s.epoch h = committedMem m₀ h

namespace Words

variable [Zero W] {m₀ : Loc → W} {dead : Set ℕ} {h : List (Event τ W)} {s s' : State τ W}
  {e : Event τ W}

omit [DecidableEq τ] [Fintype τ] in
/-- A step within the epoch, told word by word. -/
theorem within (hm : Words m₀ dead h s) (hc : ¬ e.closes) (hep : s'.epoch = s.epoch)
    (hg : s.region.Grows s'.region)
    (hword : ∀ {ℓ}, s'.Valid ℓ → ℓ.1 ∉ dead →
      WordInv (s'.region.word ℓ) (committedMem m₀ h ℓ)
        fun id => pending (s.txn id) ℓ (e :: h)) :
    Words m₀ dead (e :: h) s' := by
  refine ⟨fun {ℓ} hv hd => ?_, fun {ℓ} hv => ?_, ?_⟩
  · rw [committedMem_cons hc]
    simp only [State.txn, hep]
    exact hword hv hd
  · rw [committedMem_cons hc]
    exact hm.outside fun hv' => hv (hv'.grows hg)
  · rw [hep, epochMem_cons hc, committedMem_cons hc]
    exact hm.mem

omit [DecidableEq τ] [Fintype τ] in
/-- A step that leaves all words alone. -/
theorem same (hm : Words m₀ dead h s) (hpl : e.isPlain = true) (hc : ¬ e.closes)
    (hep : s'.epoch = s.epoch) (hn : s'.region.nSegments = s.region.nSegments)
    (hseg : ∀ i, (s'.region.segments i).nWords = (s.region.segments i).nWords ∧
      ∀ j, (s'.region.segments i).word j = (s.region.segments i).word j) :
    Words m₀ dead (e :: h) s' := by
  refine hm.within hc hep ⟨hn.ge, fun {i} _ => (hseg i).1⟩ fun {ℓ} hv hd => ?_
  have hv' : s.Valid ℓ := ⟨hn ▸ hv.1, (hseg ℓ.1).1 ▸ hv.2⟩
  rw [Region.word, (hseg ℓ.1).2]
  exact (hm.word hv' hd).congr fun id => pending_cons_plain hpl

omit [DecidableEq τ] [Fintype τ] in
/-- A step that works on one word keeps the words, if it does so for this one. -/
theorem setSegment (hm : Words m₀ dead h s) (hc : ¬ e.closes) {i j : ℕ} {seg : Segment W}
    (hep : s'.epoch = s.epoch) (hr : s'.region = s.region.setSegment i seg)
    (hn : seg.nWords = (s.region.segments i).nWords)
    (hne : ∀ k, k ≠ j → seg.word k = (s.region.segments i).word k)
    (hpe : ∀ id ℓ, ℓ ≠ (i, j) → pending (s.txn id) ℓ (e :: h) = pending (s.txn id) ℓ h)
    (hself : s.Valid (i, j) → i ∉ dead → WordInv (seg.word j) (committedMem m₀ h (i, j))
      fun id => pending (s.txn id) (i, j) (e :: h)) :
    Words m₀ dead (e :: h) s' := by
  have hg : s.region.Grows s'.region := by
    rw [hr]
    exact .setSegment hn
  refine hm.within hc hep hg fun {ℓ} hv hd => ?_
  obtain ⟨k, l⟩ := ℓ
  have hv' : s.Valid (k, l) := by
    obtain ⟨h1, h2⟩ := hv
    simp only [hr, Region.setSegment_nSegments] at h1
    refine ⟨h1, ?_⟩
    rw [hg.nWords h1] at h2
    exact h2
  rw [Region.word, hr]
  obtain rfl | hk := eq_or_ne k i
  · rw [Region.setSegment_self]
    obtain rfl | hl := eq_or_ne l j
    · exact hself hv' hd
    · rw [hne l hl]
      refine (hm.word hv' hd).congr fun id => hpe id _ ?_
      simp [hl]
  · rw [Region.setSegment_ne _ _ hk]
    refine (hm.word hv' hd).congr fun id => hpe id _ ?_
    simp [hk]

omit [Fintype τ] in
/-- A new segment keeps the words, since all of it is zero. -/
theorem alloc (hm : Words m₀ dead h s) (hw : Writes h s) {T : Txn} {k size : ℕ} :
    Words m₀ dead (.alloced T k :: h) (s.setRegion (addSegment s.region size).2) := by
  refine hm.within (not_closes_of_left_none rfl) rfl (.addSegment _ _) fun {ℓ} hv hd => ?_
  obtain ⟨i, j⟩ := ℓ
  obtain rfl | hi := eq_or_ne i s.region.nSegments
  · have hout : ¬ s.Valid (s.region.nSegments, j) := fun h => lt_irrefl _ h.1
    rw [hm.outside hout]
    have hword : (s.setRegion (addSegment s.region size).2).region.word (s.region.nSegments, j) =
        (initSegment s.region.align size : Segment W).word j := by
      simp [Region.word, addSegment]
    rw [hword]
    apply (wordInv_initSegment _ _ _).congr
    intro id
    rcases hp : pending (s.txn id) (s.region.nSegments, j) (.alloced T k :: h) with _ | v
    · rfl
    · exact absurd (hw.valid (lastWrite_of_pending hp)) hout
  · have hseg : (s.setRegion (addSegment s.region size).2).region.segments i =
        s.region.segments i := Region.setSegment_ne _ _ hi
    have hv' : s.Valid (i, j) := by
      obtain ⟨h1, h2⟩ := hv
      simp only [hseg] at h2
      refine ⟨?_, h2⟩
      have : i < s.region.nSegments + 1 := h1
      simp only
      omega
    rw [Region.word, hseg]
    exact hm.word hv' hd

/-- **The end of an epoch.** Each word takes the one write that the transactions
that left through `tm_end` have on it. -/
theorem close (hm : Words m₀ dead h s) (id : ℕ) (hb : Books h s)
    (hsh : Shape dead s.region) (hw' : Writes (e :: h) s') (hb' : Books (e :: h) s')
    (hpl : e.isPlain = true) (hl : e.left? = some (s.txn id, true))
    (hep : s'.epoch = s.epoch + 1) (hc : CommitSpec s.region.nSegments s.region s'.region) :
    Words m₀ dead (e :: h) s' := by
  have hpast : ∀ {k ℓ v}, pending (s.txn k) ℓ h = some v ↔
      Ended (e :: h) (s.txn k) ∧ lastWrite (s.txn k) ℓ (e :: h) = some v := by
    intro k ℓ v
    rw [← pending_cons_plain hpl]
    exact hw'.past hb' (by rw [hep]; exact Nat.lt_succ_self _)
  have htxn : ∀ {U : Txn}, U.epoch = s.epoch → U = s.txn U.id := by
    rintro ⟨ep, k⟩ rfl
    rfl
  have hbegun : begun (e :: h) = begun h := by
    apply begun_cons_of_none
    cases e <;> first | rfl | cases hl
  have hvalid : ∀ {ℓ}, s'.Valid ℓ ↔ s.Valid ℓ := by
    intro ℓ
    unfold State.Valid
    rw [hc.nSegments, hc.segments]
    split <;> rfl
  refine ⟨fun {ℓ} hv hd => ?_, fun {ℓ} hv => ?_, ?_⟩
  · have hv := hvalid.mp hv
    have hlive : (s.region.segments ℓ.1).deregistered = NONE := by
      by_contra hde
      exact hd (hsh.deregistered hv.1 hde)
    have hword : s'.region.word ℓ = { s.region.word ℓ with
        control := commitWord ((s.region.segments ℓ.1).control ℓ.2) } := by
      rw [Region.word, hc.segments, if_pos ⟨hv.1, hlive⟩, word_commitSegment, if_pos hv.2]
      rfl
    obtain ⟨m', hclean, hsome, hnone⟩ := WordInv.commitWord (hm.word hv hd)
    have hm' : m' = committedMem m₀ (e :: h) ℓ := by
      rw [committedMem_closing hl]
      by_cases hex : ∃ k v, pending (s.txn k) ℓ h = some v
      · obtain ⟨k, v, hp⟩ := hex
        obtain ⟨hE, hlw⟩ := hpast.mp hp
        rw [committedWrite_eq_some hE rfl hlw, hsome k v hp]
        · rfl
        · intro U w hU hUep hUw
          rw [htxn hUep] at hU hUw
          have hp' := hpast.mpr ⟨hU, hUw⟩
          rw [(hm.word hv hd).unique hp' hp, hp] at hp'
          exact (Option.some.inj hp').symm
      · rw [committedWrite_eq_none]
        · apply hnone
          intro k
          rcases hp : pending (s.txn k) ℓ h with _ | v
          · rfl
          · exact absurd ⟨k, v, hp⟩ hex
        · intro U hU hUep
          rcases hlw : lastWrite U ℓ (e :: h) with _ | v
          · rfl
          · rw [htxn hUep] at hU hlw
            exact absurd ⟨_, v, hpast.mpr ⟨hU, hlw⟩⟩ hex
    rw [hword, ← hm']
    refine hclean.congr fun k => hw'.pending_none fun hmem => ?_
    rw [hbegun] at hmem
    rcases hb.ids.begun_lt hmem with hlt | ⟨heq, -⟩
    · have hlt : s'.epoch < s.epoch := hlt
      omega
    · have heq : s'.epoch = s.epoch := heq
      omega
  · rw [committedMem_closing hl, committedWrite_eq_none]
    · exact hm.outside fun h => hv (hvalid.mpr h)
    · intro U _ _
      rcases hlw : lastWrite U ℓ (e :: h) with _ | v
      · rfl
      · exact absurd (hw'.valid hlw) hv
  · exact epochMem_closing hl hep.symm

end Words

/-- Every step keeps the words. -/
theorem words_step [Zero W] {m₀ : Loc → W} {dead : Set ℕ} {h : List (Event τ W)}
    {s s' : State τ W} {e : Event τ W} (hm : Words m₀ dead h s) (hw : Writes h s)
    (hb : Books h s) (hi : InRange s) (hsh : Shape dead s.region) (hs : Step s e s')
    (he : e.avoids dead) : Words m₀ dead (e :: h) s' := by
  have hw' := writes_step hw hb hi hsh hs he
  have hb' := hb.step hs
  have hquiet : ∀ {e : Event τ W} {s' : State τ W}, e.isPlain = true → e.left? = none →
      s'.epoch = s.epoch → s'.region = s.region → Words m₀ dead (e :: h) s' := by
    intro e s' hpl hl hep hr
    exact hm.same hpl (not_closes_of_left_none hl) hep (by rw [hr]) fun i => by
      rw [hr]
      exact ⟨rfl, fun _ => rfl⟩
  cases hs with
  | @read t id seg start idx stop off target v hc hr hidx hv =>
    refine hm.setSegment (not_closes_of_left_none rfl) (j := idx) rfl rfl
      (sameShape_readWord ..).nWords (fun k hk => word_readWord_ne _ _ _ hk)
      (fun _ _ _ => rfl) fun hval hd => (hm.word hval hd).readWord.1
  | @readRefused t id seg start idx stop off target hc hr hidx hv =>
    refine hm.setSegment (not_closes_of_left_none rfl) (j := idx) rfl rfl
      (sameShape_readWord ..).nWords (fun k hk => word_readWord_ne _ _ _ hk)
      (fun _ _ _ => rfl) fun hval hd => (hm.word hval hd).readWord.1
  | @wrote t id seg start idx stop source off segment' hc hr hidx hwr =>
    refine hm.setSegment (not_closes_of_left_none rfl) (j := idx) rfl rfl
      (sameShape_writeWord hwr).nWords (fun k hk => word_writeWord_ne hwr hk)
      (fun k ℓ hℓ => pending_wrote_ne fun h => hℓ h.2.symm) fun hval hd => ?_
    refine (hm.word hval hd).writeWord hwr pending_wrote fun k hk => ?_
    refine pending_wrote_ne fun h => hk ?_
    injection h.1 with _ h
    exact h.symm
  | @released t id i j hc hr hlt hj =>
    refine hm.setSegment (not_closes_of_left_none rfl) (j := j) rfl rfl
      (sameShape_releaseWord ..).nWords (fun k hk => word_releaseWord_ne _ _ hk)
      (fun k ℓ hℓ => pending_released_ne fun h => hℓ h.2.symm) fun hval hd => ?_
    refine (hm.word hval hd).releaseWord pending_released fun k hk => ?_
    refine pending_released_ne fun h => hk ?_
    injection h.1 with _ h
    exact h.symm
  | @alloced t id size hc hr hro =>
    simp only [hsh.tmAlloc_eq he]
    exact hm.alloc hw
  | freed => exact absurd he id
  | freeRefused => exact absurd he id
  | @undone t id i j hc hr hlt hj =>
    refine hm.same rfl (not_closes_of_left_none rfl) rfl ?_ fun k => ?_
    · simp only [State.setCall_region, State.setRegion_region, undoFree]
      split <;> rfl
    · simp only [State.setCall_region, State.setRegion_region, undoFree]
      split
      · obtain rfl | hk := eq_or_ne k i
        · rw [Region.setSegment_self]
          exact ⟨rfl, fun _ => rfl⟩
        · rw [Region.setSegment_ne _ _ hk]
          exact ⟨rfl, fun _ => rfl⟩
      · exact ⟨rfl, fun _ => rfl⟩
  | flagged hc hr =>
    exact hm.same rfl (not_closes_of_left_none rfl) rfl rfl fun i => ⟨rfl, fun _ => rfl⟩
  | @left t id fin hc hr hn =>
    refine hm.same (by cases fin <;> rfl) ?_ ?_ rfl fun i => ⟨rfl, fun _ => rfl⟩
    · rintro ⟨T, hT⟩
      cases fin <;> simp [Event.left?] at hT
    · simp only [State.epoch, State.setGate_gate, Gate.afterLeave_early hn]
  | @closed t id fin r hc hr hn hcommit =>
    refine hm.close id hb hsh hw' hb' (by cases fin <;> rfl)
      (by cases fin <;> rfl) ?_ (commitTranscationsInEpoch_spec hcommit)
    simp only [State.epoch, State.setRegion_gate, State.setGate_gate,
      Gate.afterLeave_last hn, prepareBatcherForNextEpoch]
  | _ => exact hquiet rfl rfl rfl rfl

/-! ## Runs

All invariants of a run, from a region at rest in which no word is written. `Isolated` puts
them together, and the theorems about what is read follow from it. -/

/-- A region between two epochs: nothing is written, and what is freed is dead. -/
structure Region.Settled (dead : Set ℕ) (r : Region W) : Prop extends Shape dead r where
  /-- no word is written -/
  written : ∀ {i j}, i < r.nSegments → i ∉ dead → j < (r.segments i).nWords →
    ((r.segments i).control j).wordHasBeenWritten = false

/-- A region that has just been created is settled too. -/
theorem tmCreate_settled [Zero W] (size align : ℕ) (segments : ℕ → Segment W)
    (isRoFlags : ℕ → Bool) : (tmCreate size align segments isRoFlags).Settled ∅ := by
  have hseg : ∀ {i}, i < (tmCreate size align segments isRoFlags).nSegments →
      (tmCreate size align segments isRoFlags).segments i = initSegment align size := by
    intro i hi
    obtain rfl : i = 0 := Nat.lt_one_iff.mp hi
    simp [tmCreate]
  refine ⟨⟨?_, fun {i} hi => by cases hi⟩, ?_⟩
  · intro i hi hd
    rw [hseg hi] at hd
    exact absurd rfl hd
  · intro i j hi _ _
    rw [hseg hi]
    rfl

/-- The invariant of a run that frees nothing. -/
structure Isolated [Zero W] (m₀ : Loc → W) (dead : Set ℕ) (h : List (Event τ W))
    (s : State τ W) : Prop where
  /-- the batcher -/
  books : Books h s
  /-- the segments -/
  shape : Shape dead s.region
  /-- the loops -/
  inRange : InRange s
  /-- the writes -/
  writes : Writes h s
  /-- the words -/
  words : Words m₀ dead h s
  /-- in an epoch a word has one private write at most -/
  unique : ∀ {T U ℓ v w}, ℓ.1 ∉ dead → T.epoch = U.epoch → pending T ℓ h = some v →
    pending U ℓ h = some w → T = U

omit [Fintype τ] in
/-- A step is about transactions of the current epoch. -/
theorem Step.other_epoch [Zero W] {h : List (Event τ W)} {s s' : State τ W} {e : Event τ W}
    (hs : Step s e s') {T : Txn} (hT : T.epoch ≠ s.epoch) (ℓ : Loc) :
    lastWrite T ℓ (e :: h) = lastWrite T ℓ h ∧ pending T ℓ (e :: h) = pending T ℓ h := by
  have hne : ∀ {k m}, ¬ (s.txn k = T ∧ m = ℓ) := by
    rintro k m ⟨rfl, -⟩
    exact hT rfl
  cases hs with
  | wrote => exact ⟨lastWrite_wrote_ne hne, pending_wrote_ne hne⟩
  | released => exact ⟨rfl, pending_released_ne hne⟩
  | @left t id fin => cases fin <;> exact ⟨rfl, rfl⟩
  | @closed t id fin => cases fin <;> exact ⟨rfl, rfl⟩
  | _ => exact ⟨rfl, rfl⟩

omit [Fintype τ] in
/-- An epoch ends with a leave, and epochs follow one another. -/
theorem Step.epoch [Zero W] {s s' : State τ W} {e : Event τ W} (hs : Step s e s') :
    (¬ e.closes ∧ s'.epoch = s.epoch) ∨
      (∃ id, e.left? = some (s.txn id, true)) ∧ e.isPlain = true ∧ s'.epoch = s.epoch + 1 := by
  cases hs with
  | @left t id fin hc hr hn =>
    refine .inl ⟨?_, ?_⟩
    · rintro ⟨T, hT⟩
      cases fin <;> simp [Event.left?] at hT
    · simp only [State.epoch, State.setGate_gate, Gate.afterLeave_early hn]
  | @closed t id fin r hc hr hn hcommit =>
    refine .inr ⟨⟨id, by cases fin <;> rfl⟩, by cases fin <;> rfl, ?_⟩
    simp only [State.epoch, State.setRegion_gate, State.setGate_gate,
      Gate.afterLeave_last hn, prepareBatcherForNextEpoch]
  | _ => exact .inl ⟨not_closes_of_left_none rfl, rfl⟩

namespace Isolated

variable [Zero W] {m₀ : Loc → W} {dead : Set ℕ} {h : List (Event τ W)} {s s₀ s' : State τ W}
  {e : Event τ W}

theorem of_settled (hrest : s.AtRest) (hset : s.region.Settled dead) :
    Isolated s.committed dead [] s := by
  have hout : ∀ t, s.client t = .outside := hrest.1.2
  refine ⟨.of_atRest hrest, hset.toShape, fun {t seg stop} hw => ?_,
    ⟨fun hv => (by cases hv), fun hv => (by cases hv), fun hm => (by cases hm),
      fun _ _ => rfl, fun _ => rfl, ?_, fun _ => rfl, fun {t} hw => ?_⟩,
    ⟨fun {ℓ} hv hd => ?_, fun {ℓ} hv => if_neg hv, rfl⟩, fun _ _ hp => (by cases hp)⟩
  · rw [hrest.2 t] at hw
    cases hw
  · rintro T ⟨b, hb⟩
    cases hb
  · rw [hrest.2 t] at hw
    cases hw
  · have hm : committedMem s.committed ([] : List (Event τ W)) ℓ =
        (s.region.word ℓ).readOnly := if_pos hv
    rw [hm]
    exact WordInv.clean (hset.written hv.1 hd hv.2)

theorem step (hi : Isolated m₀ dead h s) (hs : Step s e s') (he : e.avoids dead) :
    Isolated m₀ dead (e :: h) s' := by
  obtain ⟨hsh, hg⟩ := shape_step hi.shape hs he
  have hb := hi.books.step hs
  have hw := writes_step hi.writes hi.books hi.inRange hi.shape hs he
  have hm := words_step hi.words hi.writes hi.books hi.inRange hi.shape hs he
  refine ⟨hb, hsh, inRange_step hi.inRange hs hg, hw, hm, fun {T U ℓ v w} hd hep hT hU => ?_⟩
  -- the current epoch is told by the words, past epochs do not change
  have hcur : ∀ {h : List (Event τ W)} {s : State τ W}, Words m₀ dead h s → Writes h s →
      T.epoch = s.epoch → pending T ℓ h = some v → pending U ℓ h = some w → T = U := by
    intro h s hm hw hTs hT hU
    obtain ⟨ep, k⟩ := T
    obtain ⟨ep', k'⟩ := U
    obtain rfl : ep = ep' := hep
    obtain rfl : ep = s.epoch := hTs
    have hv := hw.valid (lastWrite_of_pending hT)
    rw [show k = k' from (hm.word hv hd).unique hT hU]
  by_cases hTs : T.epoch = s.epoch
  · rcases hs.epoch with ⟨-, hep'⟩ | ⟨-, hpl, -⟩
    · exact hcur hm hw (hTs.trans hep'.symm) hT hU
    · rw [pending_cons_plain hpl] at hT hU
      exact hcur hi.words hi.writes hTs hT hU
  · rw [(hs.other_epoch hTs ℓ).2] at hT
    rw [(hs.other_epoch (hep ▸ hTs) ℓ).2] at hU
    exact hi.unique hd hep hT hU

/-- The invariant holds in every reachable state. -/
theorem run {Q : Discipline (State τ W) (Event τ W)} (hQ : ∀ h s e, Q h s e → e.avoids dead)
    (hrest : s₀.AtRest) (hset : s₀.region.Settled dead) (hr : Run State.step Q s₀ h s) :
    Isolated s₀.committed dead h s := by
  induction hr with
  | start => exact of_settled hrest hset
  | next _ hs hq ih => exact ih.step (step_cases hs) (hQ _ _ _ hq)

/-- The read copies are the committed memory. -/
theorem committed (hi : Isolated m₀ dead h s) {ℓ : Loc} (hd : ℓ.1 ∉ dead) :
    s.committed ℓ = committedMem m₀ h ℓ := by
  unfold State.committed
  split
  · rename_i hv
    exact (hi.words.word hv hd).readOnly
  · rename_i hv
    exact (hi.words.outside hv).symm

/-- **What a read returns**: what the transaction itself wrote last, or else the value at the
start of its epoch. -/
theorem read (hi : Isolated m₀ dead h s) {T : Txn} {ℓ : Loc} {v : W}
    (hs : Step s (.read T ℓ v) s') (hd : ℓ.1 ∉ dead) :
    T.epoch = s.epoch ∧ v = (lastWrite T ℓ h).getD (epochMem m₀ T.epoch h ℓ) := by
  generalize he : Event.read T ℓ v = e at hs
  cases hs with
  | @read t id seg start idx stop off target w hc hr hidx hv =>
    injection he with hT hℓ hvw
    subst hT hℓ hvw
    refine ⟨rfl, ?_⟩
    have hwin : (s.call t).window = some (seg, stop) := by rw [hr]; rfl
    have hval : s.Valid (seg, idx) := (hi.inRange hwin).valid hidx
    have hread := (hi.words.word hval hd).readWord.2 hv
    have hflag := hi.books.threads.flag hc (by rw [hr]; simp)
    rw [hread, hflag, hi.words.mem]
    by_cases hro : (s.thread t).isRo = true
    · rw [if_pos hro, hi.writes.readOnly (by rw [hi.books.flags hc, hro])]
      rfl
    · rw [if_neg hro, hi.writes.pending_eq]
      · intro ha
        exact (hi.books.ids.holds.mp hc).2 (hasLeft_iff.mpr (.inr ha))
      · rintro i j ⟨u, hu, -, hcu⟩
        rw [hi.books.gate.id_inj hu hc, hr] at hcu
        cases hcu
  | @left t id fin => cases fin <;> cases he
  | @closed t id fin => cases fin <;> cases he
  | _ => cases he

end Isolated

end DualStm
