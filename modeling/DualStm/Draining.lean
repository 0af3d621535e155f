import DualStm.Epochs
import DualStm.Library.Progress
import DualStm.Raw
import Mathlib.Algebra.BigOperators.Intervals

/-!
# Progress

What the library does once its clients have nothing left to do but to end their transactions:
pending calls return or abort, blocked threads are let in, and after a number of steps that
can be read off the state everybody is outside and at rest. Nobody is left behind in
`pthread_cond_wait`, in whatever order the threads get the processor.
-/

namespace DualStm

variable {τ W : Type}

/-- The action belongs to a pending call, or is a `tm_end`. -/
def Action.drains : Action τ W → Bool
  | .enter _ => true
  | .wake _ => true
  | .setFlag _ => true
  | .word _ => true
  | .abort _ => true
  | .tmEnd _ => true
  | _ => false

/-- The library, with no new call but `tm_end`. -/
def State.drain [DecidableEq τ] [Zero W] (s : State τ W) (a : Action τ W) :
    Option (State τ W × Event τ W) := if a.drains then s.step a else none

/-! ## What is left to do

The work that is left is counted in steps of the loops: the words a call has still to go
through, the segments an abort has, and a few steps for each thread on its way in or out. -/

/-- The words and segments that an abort still has to pass, and its leave. -/
def Region.abortCost (r : Region W) (i j : ℕ) : ℕ :=
  if i < r.nSegments then
    (r.segments i).nWords - j +
      ∑ k ∈ Finset.Ico (i + 1) r.nSegments, ((r.segments k).nWords + 1) + 2
  else 1

/-- The steps of a call, and of the abort or the `tm_end` after it. -/
def Region.callCost (r : Region W) : Call W → ℕ
  | .rest => 1
  | .beginning => 2
  | .reading _ _ idx stop _ _ => (stop - idx).toNat + r.abortCost 0 0 + 2
  | .writing _ _ idx stop _ _ => (stop - idx).toNat + r.abortCost 0 0 + 2
  | .aborting i j => r.abortCost i j

/-- The steps that are left to a thread, by where it stands. -/
def Region.threadCost (r : Region W) : Client → Call W → ℕ
  | .outside, .beginning => 5
  | .outside, _ => 0
  | .blocked _, _ => 4
  | .woken _, _ => 3
  | .inside _, c => r.callCost c

/-- The steps that are left to all threads. -/
def State.cost [Fintype τ] (s : State τ W) : ℕ := ∑ t, s.region.threadCost (s.client t) (s.call t)

/-- No segment comes, goes, changes its length or comes to be freed between the two regions. -/
structure Region.SameSizes (r r' : Region W) : Prop where
  /-- as many segments -/
  nSegments : r'.nSegments = r.nSegments
  /-- as many words in each -/
  nWords : ∀ i, (r'.segments i).nWords = (r.segments i).nWords
  /-- no new marks -/
  deregistered : ∀ i, (r.segments i).deregistered = NONE → (r'.segments i).deregistered = NONE

namespace Region.SameSizes

variable {r r' : Region W}

theorem refl (r : Region W) : r.SameSizes r := ⟨rfl, fun _ => rfl, fun _ hd => hd⟩

theorem setSegment {i : ℕ} {seg : Segment W} (hn : seg.nWords = (r.segments i).nWords)
    (hd : (r.segments i).deregistered = NONE → seg.deregistered = NONE) :
    r.SameSizes (r.setSegment i seg) := by
  refine ⟨rfl, ?_, ?_⟩
  · intro k
    obtain rfl | hki := eq_or_ne k i
    · rw [Region.setSegment_self, hn]
    · rw [Region.setSegment_ne _ _ hki]
  · intro k hk
    obtain rfl | hki := eq_or_ne k i
    · rw [Region.setSegment_self]
      exact hd hk
    · rw [Region.setSegment_ne _ _ hki]
      exact hk

theorem ofShape {i : ℕ} {seg : Segment W} (hs : SameShape (r.segments i) seg) :
    r.SameSizes (r.setSegment i seg) :=
  setSegment hs.nWords fun hd => hs.deregistered.trans hd

theorem undoFree (r : Region W) (tx i : ℕ) : r.SameSizes (undoFree r tx i) := by
  unfold DualStm.undoFree
  split
  · exact setSegment rfl fun _ => rfl
  · exact refl r

theorem commit (hc : commitTranscationsInEpoch r = some r') : r.SameSizes r' := by
  have hspec := commitTranscationsInEpoch_spec hc
  refine ⟨hspec.nSegments, ?_, ?_⟩
  · intro i
    rw [hspec.segments i]
    split <;> rfl
  · intro i hd
    rw [hspec.segments i]
    split <;> exact hd

theorem abortCost (hr : r.SameSizes r') (i j : ℕ) : r'.abortCost i j = r.abortCost i j := by
  simp only [Region.abortCost, hr.nSegments, hr.nWords]

theorem callCost (hr : r.SameSizes r') (c : Call W) : r'.callCost c = r.callCost c := by
  cases c <;> simp only [Region.callCost, hr.abortCost]

theorem threadCost (hr : r.SameSizes r') (c : Client) (call : Call W) :
    r'.threadCost c call = r.threadCost c call := by
  cases c with
  | outside => cases call <;> rfl
  | inside id => exact hr.callCost call
  | _ => rfl

end Region.SameSizes

/-- An abort always has its leave to do. -/
theorem Region.abortCost_pos (r : Region W) (i j : ℕ) : 0 < r.abortCost i j := by
  rw [Region.abortCost]
  split <;> omega

/-- An abort that is done with a word has fewer steps to go. -/
theorem Region.abortCost_word {r : Region W} {i j : ℕ} (hi : i < r.nSegments)
    (hj : j < (r.segments i).nWords) : r.abortCost i (j + 1) < r.abortCost i j := by
  rw [Region.abortCost, Region.abortCost, if_pos hi, if_pos hi]
  omega

/-- An abort that is done with a segment has fewer steps to go. -/
theorem Region.abortCost_segment {r : Region W} {i : ℕ} (j : ℕ) (hi : i < r.nSegments) :
    r.abortCost (i + 1) 0 < r.abortCost i j := by
  rw [Region.abortCost, Region.abortCost, if_pos hi]
  split
  · rename_i hlt
    rw [Finset.sum_eq_sum_Ico_succ_bot hlt]
    omega
  · omega

/-- A broadcast brings a blocked thread closer to its id. -/
theorem Region.threadCost_wakeUp (r : Region W) (c : Client) (call : Call W) :
    r.threadCost c.wakeUp call ≤ r.threadCost c call := by
  cases c with
  | blocked n => exact Nat.le_succ 3
  | _ => exact le_rfl

/-! ## One step

Every step of a drain takes one off the work of its thread and adds none to the others. There
is one lemma for each kind of step. -/

variable [DecidableEq τ]

/-- A thread gets on, and the others are at most woken up. -/
structure Advances (s s' : State τ W) (t : τ) : Prop where
  /-- the segments stay -/
  sizes : s.region.SameSizes s'.region
  /-- the thread has less to do -/
  self : s.region.threadCost (s'.client t) (s'.call t) <
    s.region.threadCost (s.client t) (s.call t)
  /-- the others stay where they are -/
  others : ∀ u, u ≠ t → s'.call u = s.call u ∧
    (s'.client u = s.client u ∨ s'.client u = (s.client u).wakeUp)

variable {s s' : State τ W} {t : τ} {e : Event τ W} {h : List (Event τ W)}

omit [DecidableEq τ] in
theorem Advances.cost_lt [Fintype τ] (ha : Advances s s' t) : s'.cost < s.cost := by
  refine sum_lt_of_member (t := t) ?_ ?_
  · rw [ha.sizes.threadCost]
    exact ha.self
  · intro u hu
    obtain ⟨hcall, hclient⟩ := ha.others u hu
    rw [ha.sizes.threadCost, hcall]
    rcases hclient with hclient | hclient
    · rw [hclient]
    · rw [hclient]
      exact s.region.threadCost_wakeUp _ _

/-- A thread inside moves on in the library. -/
theorem Advances.setCall {r : Region W} {c : Call W} {id : ℕ} (hr : s.region.SameSizes r)
    (hc : s.client t = .inside id) (hlt : s.region.callCost c < s.region.callCost (s.call t)) :
    Advances s ((s.setRegion r).setCall t c) t := by
  have hclient : ((s.setRegion r).setCall t c).client t = .inside id := hc
  refine ⟨hr, ?_, fun u hu => ⟨?_, .inl rfl⟩⟩
  · rw [hclient, hc, State.setCall_call_self]
    exact hlt
  · rw [State.setCall_call, if_neg hu]
    rfl

/-- A thread takes an id or waits for one. -/
theorem Advances.setGate {g : Gate τ} {c : Client} {b : Batcher}
    (hg : g = ⟨b, Function.update s.gate.client t c⟩)
    (hlt : s.region.threadCost c (s.call t) < s.region.threadCost (s.client t) (s.call t)) :
    Advances s (s.setGate g) t := by
  subst hg
  refine ⟨.refl _, ?_, fun u hu => ⟨rfl, .inl ?_⟩⟩
  · have hclient : (s.setGate ⟨b, Function.update s.gate.client t c⟩).client t = c :=
      Function.update_self ..
    rw [hclient]
    exact hlt
  · exact Function.update_of_ne hu _ _

/-- A thread that leaves has less to do than before, and nobody has more. -/
theorem advances_leave {event : Txn → Bool → Event τ W} (hpos : 0 < s.region.callCost (s.call t))
    (hs : s.leave t event = some (s', e)) : Advances s s' t := by
  unfold State.leave at hs
  split at hs
  · rename_i id hc
    have hlt : s.region.threadCost .outside (Call.rest : Call W) <
        s.region.threadCost (s.client t) (s.call t) := by
      rw [hc]
      exact hpos
    have hself : ∀ r, (((s.setCall t .rest).setGate (s.gate.afterLeave t)).setRegion r).client t =
        .outside := by
      intro r
      simp only [State.client, State.setRegion_gate, State.setGate_gate, Gate.afterLeave,
        Function.update_self]
      split <;> rfl
    have hothers : ∀ r u, u ≠ t →
        (((s.setCall t .rest).setGate (s.gate.afterLeave t)).setRegion r).client u = s.client u ∨
        (((s.setCall t .rest).setGate (s.gate.afterLeave t)).setRegion r).client u =
          (s.client u).wakeUp := by
      intro r u hu
      simp only [State.client, State.setRegion_gate, State.setGate_gate, Gate.afterLeave,
        Function.update_of_ne hu]
      split
      · exact .inr rfl
      · exact .inl rfl
    have hleave : ∀ r, s.region.SameSizes r →
        Advances s (((s.setCall t .rest).setGate (s.gate.afterLeave t)).setRegion r) t := by
      intro r hr
      refine ⟨hr, ?_, fun u hu => ⟨?_, hothers r u hu⟩⟩
      · rw [hself r]
        exact lt_of_eq_of_lt (congrArg _ (State.setCall_call_self ..)) hlt
      · exact (State.setCall_call ..).trans (if_neg hu)
    split at hs
    · obtain ⟨r, hcommit, heq⟩ := Option.map_eq_some_iff.mp hs
      obtain ⟨rfl, rfl⟩ := Prod.mk.inj heq
      exact hleave r (.commit hcommit)
    · obtain ⟨rfl, rfl⟩ := Prod.mk.inj (Option.some.inj hs)
      exact hleave s.region (.refl _)
  · cases hs

/-- One turn of the loop of `tm_read` or `tm_write` leaves its thread with less to do. -/
theorem advances_word {id : ℕ} (hc : s.client t = .inside id) (hs : s.word t id = some (s', e)) :
    Advances s s' t := by
  have hnext : ∀ {idx : ℕ} {stop : ℤ} (n : ℕ), (idx : ℤ) < stop →
      (stop - (idx + 1 : ℕ)).toNat + n + 2 < (stop - idx).toNat + n + 2 := by
    intro idx stop n hlt
    omega
  have habort : ∀ n : ℕ, s.region.abortCost 0 0 < n + s.region.abortCost 0 0 + 2 := by
    intro n
    omega
  have hrest : ∀ n : ℕ, 1 < n + s.region.abortCost 0 0 + 2 := by
    intro n
    have hpos := s.region.abortCost_pos 0 0
    omega
  rw [State.word] at hs
  split at hs
  · rename_i seg start idx stop off target hr
    split at hs
    · rename_i hidx
      have hshape := sameShape_readWord (s.region.segments seg) id (s.region.isRoFlags id) idx
      simp only at hs
      split at hs
      · rename_i v segment' hread
        obtain ⟨rfl, rfl⟩ := Prod.mk.inj (Option.some.inj hs)
        rw [hread] at hshape
        refine .setCall (.ofShape hshape) hc ?_
        rw [hr]
        exact hnext _ hidx
      · rename_i segment' hread
        obtain ⟨rfl, rfl⟩ := Prod.mk.inj (Option.some.inj hs)
        rw [hread] at hshape
        refine .setCall (.ofShape hshape) hc ?_
        rw [hr]
        exact habort _
    · obtain ⟨rfl, rfl⟩ := Prod.mk.inj (Option.some.inj hs)
      apply Advances.setCall (r := s.region) (.refl _) hc
      rw [hr]
      exact hrest _
  · rename_i seg start idx stop source off hr
    split at hs
    · rename_i hidx
      simp only at hs
      split at hs
      · rename_i segment' hwrite
        obtain ⟨rfl, rfl⟩ := Prod.mk.inj (Option.some.inj hs)
        refine .setCall (.ofShape (sameShape_writeWord hwrite)) hc ?_
        rw [hr]
        exact hnext _ hidx
      · obtain ⟨rfl, rfl⟩ := Prod.mk.inj (Option.some.inj hs)
        apply Advances.setCall (r := s.region) (.refl _) hc
        rw [hr]
        exact habort _
    · obtain ⟨rfl, rfl⟩ := Prod.mk.inj (Option.some.inj hs)
      apply Advances.setCall (r := s.region) (.refl _) hc
      rw [hr]
      exact hrest _
  · cases hs

/-- One turn of the loops of `abort_transaction_tx`, or its leave, leaves its thread with less
to do. -/
theorem advances_abort {id i j : ℕ} (hc : s.client t = .inside id) (hr : s.call t = .aborting i j)
    (hs : s.abort t id i j = some (s', e)) : Advances s s' t := by
  rw [State.abort] at hs
  split at hs
  · rename_i hi
    simp only at hs
    split at hs
    · rename_i hj
      obtain ⟨rfl, rfl⟩ := Prod.mk.inj (Option.some.inj hs)
      refine .setCall (.ofShape (sameShape_releaseWord ..)) hc ?_
      rw [hr]
      exact Region.abortCost_word hi hj
    · obtain ⟨rfl, rfl⟩ := Prod.mk.inj (Option.some.inj hs)
      refine .setCall (.undoFree ..) hc ?_
      rw [hr]
      exact Region.abortCost_segment j hi
  · refine advances_leave ?_ hs
    rw [hr]
    exact s.region.abortCost_pos i j

/-- **Every step is one step less to do.** -/
theorem advances_drain [Fintype τ] [Zero W] (hb : Books h s) {a : Action τ W}
    (hs : s.drain a = some (s', e)) : ∃ t, Advances s s' t := by
  rw [State.drain] at hs
  split at hs
  · cases a with
    | enter t =>
      refine ⟨t, ?_⟩
      rw [State.step] at hs
      split at hs
      · rename_i hc hr
        split at hs
        · obtain ⟨rfl, rfl⟩ := Prod.mk.inj (Option.some.inj hs)
          refine .setGate rfl ?_
          rw [hc, hr]
          exact (by decide : 2 < 5)
        · obtain ⟨rfl, rfl⟩ := Prod.mk.inj (Option.some.inj hs)
          refine .setGate rfl ?_
          rw [hc, hr]
          exact (by decide : 4 < 5)
      · cases hs
    | wake t =>
      refine ⟨t, ?_⟩
      rw [State.step] at hs
      split at hs
      · rename_i since hc
        obtain ⟨rfl, rfl⟩ := Prod.mk.inj (Option.some.inj hs)
        refine .setGate rfl ?_
        rw [hc, hb.threads.woken hc]
        exact (by decide : 2 < 3)
      · cases hs
    | setFlag t =>
      refine ⟨t, ?_⟩
      rw [State.step] at hs
      split at hs
      · rename_i id hc hr
        obtain ⟨rfl, rfl⟩ := Prod.mk.inj (Option.some.inj hs)
        refine .setCall ⟨rfl, fun _ => rfl, fun _ hd => hd⟩ hc ?_
        rw [hr]
        exact Nat.one_lt_two
      · cases hs
    | word t =>
      refine ⟨t, ?_⟩
      rw [State.step] at hs
      split at hs
      · rename_i id hc
        exact advances_word hc hs
      · cases hs
    | abort t =>
      refine ⟨t, ?_⟩
      rw [State.step] at hs
      split at hs
      · rename_i id i j hc hr
        exact advances_abort hc hr hs
      · cases hs
    | tmEnd t =>
      refine ⟨t, ?_⟩
      rw [State.step] at hs
      split at hs
      · rename_i hr
        refine advances_leave ?_ hs
        rw [hr]
        exact Nat.one_pos
      · cases hs
    | _ => cases ‹_ = true›
  · cases hs

/-! ## Somebody can always do a step

A state in which nobody can do a step of a drain has nobody inside and nobody waiting: who is
inside can go on, and who waits is waited for by somebody inside or woken. -/

section

variable [Zero W]

/-- The library can do one of its steps, or the commit runs off the stack. -/
def Moving (s : State τ W) : Prop :=
  (∃ a s' e, s.drain a = some (s', e)) ∨ commitTranscationsInEpoch s.region = none

theorem Moving.of_step {a : Action τ W} (ha : a.drains = true) {p : State τ W × Event τ W}
    (hs : s.step a = some p) : Moving s := .inl ⟨a, p.1, p.2, (if_pos ha).trans hs⟩

/-- A leave that may commit is a step somebody can do. -/
theorem Moving.of_leave {a : Action τ W} (ha : a.drains = true) {id : ℕ}
    {event : Txn → Bool → Event τ W} (hc : s.client t = .inside id)
    (hs : s.step a = s.leave t event) : Moving s := by
  cases hcommit : commitTranscationsInEpoch s.region with
  | none => exact .inr hcommit
  | some r =>
    simp only [State.leave, hc, hcommit, Option.map_some] at hs
    by_cases hl : (leaveBatcher s.gate.batcher).2 = true
    · exact .of_step ha (hs.trans (if_pos hl))
    · exact .of_step ha (hs.trans (if_neg hl))

/-- If a thread is inside, somebody can do a step: it can go on itself. -/
theorem moving_of_inside {id : ℕ} (hc : s.client t = .inside id) : Moving s := by
  cases hr : s.call t with
  | rest =>
    refine .of_leave (a := .tmEnd t) rfl hc (show s.step (.tmEnd t) = s.leave t .ended from ?_)
    simp only [State.step, hr]
  | beginning =>
    obtain ⟨p, hp⟩ : ∃ p, s.step (.setFlag t) = some p := by
      simp only [State.step, hc, hr]
      exact ⟨_, rfl⟩
    exact .of_step (a := .setFlag t) rfl hp
  | reading seg start idx stop off target =>
    obtain ⟨p, hp⟩ : ∃ p, s.word t id = some p := by
      simp only [State.word, hr]
      split
      · split <;> exact ⟨_, rfl⟩
      · exact ⟨_, rfl⟩
    refine .of_step (a := .word t) rfl (p := p) ?_
    simp only [State.step, hc, hp]
  | writing seg start idx stop source off =>
    obtain ⟨p, hp⟩ : ∃ p, s.word t id = some p := by
      simp only [State.word, hr]
      split
      · split <;> exact ⟨_, rfl⟩
      · exact ⟨_, rfl⟩
    refine .of_step (a := .word t) rfl (p := p) ?_
    simp only [State.step, hc, hp]
  | aborting i j =>
    have habort : s.step (.abort t) = s.abort t id i j := by
      simp only [State.step, hc, hr]
    by_cases hi : i < s.region.nSegments
    · obtain ⟨p, hp⟩ : ∃ p, s.abort t id i j = some p := by
        rw [State.abort, if_pos hi]
        simp only
        split <;> exact ⟨_, rfl⟩
      exact .of_step (a := .abort t) rfl (habort.trans hp)
    · refine .of_leave (a := .abort t) rfl hc (show s.step (.abort t) = s.leave t .aborted from ?_)
      rw [habort, State.abort, if_neg hi]

theorem moving_of_woken {n : ℕ} (hc : s.client t = .woken n) : Moving s := by
  obtain ⟨p, hp⟩ : ∃ p, s.step (.wake t) = some p := by
    simp only [State.step, hc]
    exact ⟨_, rfl⟩
  exact .of_step (a := .wake t) rfl hp

variable [Fintype τ]

/-- **No wake-up is lost.** If a thread waits, another one is on its way. -/
theorem moving_of_blocked (hb : Books h s) {n : ℕ} (hc : s.client t = .blocked n) : Moving s := by
  have hblocked : 0 < countOf Client.isBlocked s.gate.client :=
    countOf_pos (t := t) (by rw [show s.gate.client t = .blocked n from hc]; rfl)
  have hremaining : s.gate.batcher.nRemaining ≠ 0 := by
    intro hn
    have hidle := (hb.gate.idle hn).1
    have hcount := hb.gate.blocked
    omega
  have hcount := hb.gate.remaining
  by_cases hin : countOf Client.isInside s.gate.client = 0
  · have hwoken : countOf Client.isWoken s.gate.client ≠ 0 := by omega
    rw [Ne, countOf_eq_zero] at hwoken
    obtain ⟨u, hu⟩ := not_forall.mp hwoken
    cases hcu : s.gate.client u with
    | woken n => exact moving_of_woken hcu
    | _ => exact absurd (by rw [hcu]; rfl) hu
  · rw [countOf_eq_zero] at hin
    obtain ⟨u, hu⟩ := not_forall.mp hin
    cases hcu : s.gate.client u with
    | inside id => exact moving_of_inside hcu
    | _ => exact absurd (by rw [hcu]; rfl) hu

/-- Unless everybody is outside and at rest, somebody can do a step. -/
theorem moving_or_rest (hb : Books h s) :
    Moving s ∨ ∀ t, s.client t = .outside ∧ s.call t = .rest := by
  by_cases hall : ∀ t, s.client t = .outside ∧ s.call t = .rest
  · exact .inr hall
  · obtain ⟨t, ht⟩ := not_forall.mp hall
    refine .inl ?_
    cases hc : s.client t with
    | outside =>
      rcases hb.threads.outside hc with hr | hr
      · exact absurd ⟨hc, hr⟩ ht
      · obtain ⟨p, hp⟩ : ∃ p, s.step (.enter t) = some p := by
          simp only [State.step, hc, hr]
          split <;> exact ⟨_, rfl⟩
        exact .of_step (a := .enter t) rfl hp
    | blocked n => exact moving_of_blocked hb hc
    | woken n => exact moving_of_woken hc
    | inside id => exact moving_of_inside hc

end

/-! ## Runs

The work that is left bounds every drain, and a drain that has come to its end has everybody
outside. So every drain can be led to such an end. -/

section

variable [Zero W] [Fintype τ] {Q : Discipline (State τ W) (Event τ W)} {s₀ : State τ W}
  {g : List (Event τ W)}

omit [Zero W] in
/-- With nobody inside, the batcher is as new. -/
theorem Books.atRest (hb : Books h s) (hall : ∀ t, s.client t = .outside ∧ s.call t = .rest) :
    s.AtRest := by
  have hout : ∀ t, s.gate.client t = .outside := fun t => (hall t).1
  have hzero : ∀ p : Client → Bool, p .outside = false → countOf p s.gate.client = 0 := by
    intro p hp
    rw [countOf_eq_zero]
    intro t
    rw [hout t, hp]
  have hremaining := hb.gate.remaining
  rw [hzero _ rfl, hzero _ rfl] at hremaining
  obtain ⟨hblocked, hin⟩ := hb.gate.idle hremaining
  have hgen := hb.gate.inEpoch
  rw [hzero _ rfl, hin] at hgen
  refine ⟨⟨?_, hout⟩, fun t => (hall t).2⟩
  have hfirst : s.gate.batcher.txIdGenerator = 0 := by omega
  have hbatcher : ∀ b : Batcher, b.txIdGenerator = 0 → b.nRemaining = 0 → b.nBlocked = 0 →
      b.nInEpoch = 0 → b = { initBatcher with curEpoch := b.curEpoch } := by
    rintro ⟨gen, cur, remaining, blocked, inEpoch⟩ rfl rfl rfl rfl
    rfl
  exact hbatcher _ hfirst hremaining hblocked hin

omit [Zero W] in
/-- At rest every transaction has left. -/
theorem Books.left_of_atRest (hb : Books h s) (hrest : s.AtRest) {T : Txn} (hT : T ∈ begun h) :
    HasLeft h T := by
  rcases hb.ids.begun_lt hT with hlt | ⟨-, hid⟩
  · exact hb.ids.left_of_lt hT hlt
  · rw [hrest.1.1] at hid
    exact absurd hid (Nat.not_lt_zero _)

omit [Fintype τ] in
/-- The steps of a drain are steps of the library. -/
theorem Run.of_drain (hr : Run State.drain anyStep s g s') : Run State.step anyStep s g s' := by
  induction hr with
  | start => exact .start
  | next _ hs _ ih =>
    rw [State.drain] at hs
    split at hs
    · exact ih.next hs trivial
    · cases hs

/-- In the reachable states a step of a drain lowers the work that is left. -/
theorem lowers_drain (hrest : s₀.AtRest) :
    Lowers State.drain (fun s : State τ W => ∃ h, Run State.step anyStep s₀ h s) State.cost := by
  rintro s a s' e ⟨h, hr⟩ hs
  obtain ⟨t, ht⟩ := advances_drain (Books.run hrest hr) hs
  exact ⟨⟨e :: h, hr.trans (Run.of_drain (Run.start.next hs trivial))⟩, ht.cost_lt⟩

/-- In a drain no segment comes to be marked as freed. -/
theorem Run.unmarked (hrest : s₀.AtRest) (hr : Run State.step anyStep s₀ h s)
    (hg : Run State.drain anyStep s g s') (hu : s.region.Unmarked) : s'.region.Unmarked := by
  induction hg with
  | start => exact hu
  | next hg hs _ ih =>
    obtain ⟨t, ht⟩ := advances_drain (Books.run hrest (hr.trans (Run.of_drain hg))) hs
    intro i hi
    rw [ht.sizes.nSegments] at hi
    exact ht.sizes.deregistered i (ih i hi)

/-- **The library comes to rest.** From every reachable state, without new calls but
`tm_end`: no more steps are done than the state has left to do; the library can go on until
nobody can do a step; and then everybody is outside and at rest, and every transaction that
began has left, if no segment was to be freed, or the commit does not run off the stack. -/
theorem drains (hrest : s₀.AtRest) (hr : Run State.step Q s₀ h s) :
    (∀ g s', Run State.drain anyStep s g s' → g.length + s'.cost ≤ s.cost ∧
      (Stuck State.drain s' →
        s.region.Unmarked ∨ commitTranscationsInEpoch s'.region ≠ none →
        s'.AtRest ∧ ∀ T ∈ begun (g ++ h), HasLeft (g ++ h) T)) ∧
      ∃ g s', Run State.drain anyStep s g s' ∧ Stuck State.drain s' := by
  have hreach : ∃ h, Run State.step anyStep s₀ h s := ⟨h, hr.any⟩
  refine ⟨fun g s' hg => ⟨((lowers_drain hrest).length_add_le hreach hg).2, fun hstuck hfree => ?_⟩,
    (lowers_drain hrest).exists_stuck hreach⟩
  have hcommit : commitTranscationsInEpoch s'.region ≠ none := by
    rcases hfree with hu | hcommit
    · obtain ⟨r, hr'⟩ := (hr.any.unmarked hrest hg hu).commit
      rw [hr']
      exact Option.some_ne_none r
    · exact hcommit
  have hb := Books.run hrest (hr.any.trans (Run.of_drain hg))
  rcases moving_or_rest hb with (⟨a, s'', e, hs⟩ | hnone) | hall
  · rw [hstuck a] at hs
    cases hs
  · exact absurd hnone hcommit
  · exact ⟨hb.atRest hall, fun T hT => hb.left_of_atRest (hb.atRest hall) hT⟩

end

/-- One thread is in the loop of `tm_read`, and the other one waits for it. -/
def waitingBehind : List (Event Bool ℕ) :=
  [.waiting false, .called false true, .silent, .silent, .began true ⟨0, 0⟩, .called true false]

/-- From the run above both threads get out. -/
theorem drains_waitingBehind :
    ∃ (s s' : State Bool ℕ) (g : List (Event Bool ℕ)),
      Run State.step anyStep restState waitingBehind s ∧ Run State.drain anyStep s g s' ∧
      g.length ≤ s.cost ∧ s'.AtRest ∧
      HasLeft (g ++ waitingBehind) ⟨0, 0⟩ := by
  obtain ⟨s, hr, hu⟩ : ∃ s : State Bool ℕ, Run State.step anyStep restState waitingBehind s ∧
      decide s.region.Unmarked = true :=
    Run.of_execUnder (f := fun s : State Bool ℕ => decide s.region.Unmarked)
      ([.tmBegin true false, .enter true, .setFlag true, .tmRead true getVirtStartAddr 8,
        .tmBegin false true, .enter false] : List (Action Bool ℕ)) .start (by decide +kernel)
  obtain ⟨hall, g, s', hg, hstuck⟩ := drains restState_atRest hr
  obtain ⟨hlength, hend⟩ := hall g s' hg
  obtain ⟨hatRest, hleft⟩ := hend hstuck (.inl (of_decide_eq_true hu))
  refine ⟨s, s', g, hr, hg, by omega, hatRest, hleft ⟨0, 0⟩ ?_⟩
  exact mem_begun (List.mem_append_right _ (by decide : .began true ⟨0, 0⟩ ∈ waitingBehind))

/-! ## How long a thread waits

A wait is over with the commit of the epoch in which it began. What keeps a thread from its id
after that is only that it has not run yet. -/

/-- A woken thread waited for the epoch it is about to join. -/
def WokenNext (g : Gate τ) : Prop := ∀ t n, g.client t = .woken n → n + 1 = g.batcher.curEpoch

omit [DecidableEq τ] in
theorem wokenNext_of_atRest {g : Gate τ} (hg : g.AtRest) : WokenNext g := by
  intro t n hc
  rw [hg.2 t] at hc
  cases hc

theorem wokenNext_gateMove [Fintype τ] {g g' : Gate τ} (hw : WokenNext g) (hg : GateInv g)
    (hb : BlockedNow g) (hm : GateMove g e g') : WokenNext g' := by
  have hmoved : ∀ {b : Batcher} {u : τ} {c : Client}, b.curEpoch = g.batcher.curEpoch →
      (∀ n, c ≠ .woken n) → WokenNext ⟨b, Function.update g.client u c⟩ := by
    intro b u c hcur hc t n ht
    simp only at ht ⊢
    obtain rfl | htu := eq_or_ne t u
    · rw [Function.update_self] at ht
      exact absurd ht (hc n)
    · rw [Function.update_of_ne htu] at ht
      rw [hcur]
      exact hw t n ht
  cases hm with
  | quiet _ _ => exact hw
  | waits _ _ _ _ => exact hmoved rfl (by rintro n ⟨⟩)
  | opens _ _ => exact hmoved rfl (by rintro n ⟨⟩)
  | wakes _ => exact hmoved rfl (by rintro n ⟨⟩)
  | @leaves _ u id hc _ _ =>
    by_cases hn : g.batcher.nRemaining = 1
    · rw [Gate.afterLeave_last hn]
      intro t n ht
      simp only at ht
      obtain rfl | htu := eq_or_ne t u
      · rw [Function.update_self] at ht
        cases ht
      · rw [Function.update_of_ne htu] at ht
        cases hct : g.client t with
        | outside =>
          rw [hct] at ht
          cases ht
        | inside k =>
          rw [hct] at ht
          cases ht
        | blocked m =>
          rw [hct] at ht
          injection ht with hmn
          subst hmn
          rw [hb t m hct]
          rfl
        | woken m =>
          -- a woken thread counts, so the one that leaves is not the last
          have hinside := countOf_pos (p := Client.isInside) (f := g.client) (t := u)
            (by rw [hc]; rfl)
          have hwoken := countOf_pos (p := Client.isWoken) (f := g.client) (t := t)
            (by rw [hct]; rfl)
          have hcount := hg.remaining
          omega
    · rw [Gate.afterLeave_early hn]
      exact hmoved rfl (by rintro n ⟨⟩)

theorem WokenNext.run [Fintype τ] [Zero W] {Q : Discipline (State τ W) (Event τ W)}
    {s₀ : State τ W} (hrest : s₀.AtRest) (hr : Run State.step Q s₀ h s) : WokenNext s.gate := by
  induction hr with
  | start => exact wokenNext_of_atRest hrest.1
  | next hr hs _ ih =>
    have hb := Books.run hrest hr
    exact wokenNext_gateMove ih hb.gate hb.blocked (step_cases hs).gateMove

/-- The thread has waited since epoch `n`. -/
def WaitingSince (s : State τ W) (t : τ) (n : ℕ) : Prop :=
  s.client t = .blocked n ∨ s.client t = .woken n

/-- A waiting thread waits on until it gets its id. -/
theorem WaitingSince.step [Zero W] {n : ℕ} (hw : WaitingSince s t n) (hs : Step s e s')
    (he : ∀ T, e ≠ .began t T) : WaitingSince s' t n := by
  have hm := hs.gateMove
  unfold WaitingSince State.client at *
  generalize s.gate = g at *
  generalize s'.gate = g' at *
  have hother : ∀ {u : τ} {c : Client}, t ≠ u →
      Function.update g.client u c t = .blocked n ∨ Function.update g.client u c t = .woken n := by
    intro u c htu
    rwa [Function.update_of_ne htu]
  have hne : ∀ {u : τ}, (∀ m, g.client u ≠ .blocked m ∧ g.client u ≠ .woken m) → t ≠ u := by
    rintro u hu rfl
    rcases hw with hw | hw
    · exact (hu n).1 hw
    · exact (hu n).2 hw
  cases hm with
  | quiet _ _ => exact hw
  | @waits _ u _ _ hc _ =>
    exact hother (hne fun m => by rw [hc]; exact ⟨by rintro ⟨⟩, by rintro ⟨⟩⟩)
  | @opens u hc _ =>
    exact hother (hne fun m => by rw [hc]; exact ⟨by rintro ⟨⟩, by rintro ⟨⟩⟩)
  | @wakes u since hc =>
    apply hother
    intro htu
    rw [htu] at he
    exact he _ rfl
  | @leaves _ u id hc _ _ =>
    have htu : t ≠ u := hne fun m => by rw [hc]; exact ⟨by rintro ⟨⟩, by rintro ⟨⟩⟩
    by_cases hn : g.batcher.nRemaining = 1
    · rw [Gate.afterLeave_last hn]
      simp only [Function.update_of_ne htu]
      rcases hw with hw | hw
      · rw [hw]
        exact .inr rfl
      · rw [hw]
        exact .inr rfl
    · rw [Gate.afterLeave_early hn]
      exact hother htu

/-- A thread that comes to wait in an epoch gets its id in the next one. -/
theorem next_epoch_of_waiting [Fintype τ] [Zero W] {Q : Discipline (State τ W) (Event τ W)}
    {s₀ : State τ W} {g : List (Event τ W)} {T : Txn} (hrest : s₀.AtRest)
    (hr : Run State.step Q s₀ (.began t T :: (g ++ .waiting t :: h)) s)
    (hg : ∀ T', .began t T' ∉ g) :
    ∃ s₁, Run State.step Q s₀ h s₁ ∧ T.epoch = s₁.epoch + 1 := by
  obtain ⟨s₃, a, hr₃, hs₃, -⟩ := hr.last
  obtain ⟨s₂, hr₂, hrest₂⟩ := hr₃.split
  obtain ⟨s₁, b, hr₁, hs₁, -⟩ := hr₂.last
  refine ⟨s₁, hr₁, ?_⟩
  have hwaits : WaitingSince s₂ t s₁.epoch := by
    have hs := step_cases hs₁
    generalize he : Event.waiting t = e at hs
    cases hs with
    | @waiting u hc hr hn =>
      injection he with htu
      subst htu
      exact .inl (Function.update_self ..)
    | @left u id fin => cases fin <;> cases he
    | @closed u id fin => cases fin <;> cases he
    | _ => cases he
  have hwait : WaitingSince s₃ t s₁.epoch := by
    clear hr hr₃ hs₃
    induction hrest₂ with
    | start => exact hwaits
    | next _ hs _ ih =>
      apply (ih fun T' hT' => hg T' (List.mem_cons_of_mem _ hT')).step (step_cases hs)
      rintro T' rfl
      exact hg T' List.mem_cons_self
  have hs := step_cases hs₃
  rw [hs.began_epoch]
  have hnext := WokenNext.run hrest hr₃
  generalize he : Event.began t T = e at hs
  cases hs with
  | @opened u hc hr hn =>
    injection he with htu _
    subst htu
    rcases hwait with hwait | hwait
    · rw [hc] at hwait
      cases hwait
    · rw [hc] at hwait
      cases hwait
  | @woke u since hc =>
    injection he with htu _
    subst htu
    rcases hwait with hwait | hwait
    · rw [hc] at hwait
      cases hwait
    · exact (hnext t _ hwait).symm
  | @left u id fin => cases fin <;> cases he
  | @closed u id fin => cases fin <;> cases he
  | _ => cases he

end DualStm
