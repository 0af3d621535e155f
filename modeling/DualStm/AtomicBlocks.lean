import DualStm.Closures
import DualStm.Opacity

/-!
# Closures as atomic blocks

Threads call `transactional` again and again, each time with one of the transactions of
their program: a mode and a closure that reads and writes words. A closure may keep an
invariant of the memory, and may write every word it reads if it writes at all. If all of
them do, then what the threads get is what they would get alone: their calls have an
order, one that respects real time, in which each closure, run on the memory that the ones
before it have left, returns the value that `transactional` has returned; and the
committed memory keeps the invariant.

A caller here begins, does its calls, ends, and begins again after an abort. What the class
and the loop of `transactional.hpp` add to that is the subject of `Transactional`.
-/

namespace DualStm

variable {τ κ α : Type}

/-- A thread that calls `transactional`. -/
structure Caller (κ α : Type) where
  /-- the transaction it is called with -/
  job : Option κ
  /-- past `tm_begin`: what is left of the closure -/
  rest : Option (Closure α)

/-- The library and the threads that call it. -/
structure Callers (τ κ α : Type) where
  /-- the library -/
  state : State τ ℤ
  /-- the threads -/
  caller : τ → Caller κ α

/-- What a thread does next: it takes up a call, or it goes on in the one it has. -/
inductive CallerAction (τ κ : Type) where
  /-- call `transactional` -/
  | call (t : τ) (k : κ)
  /-- go on in it -/
  | go (t : τ)

/-- What happened in a step, as the callers see it. -/
inductive CallerReport (τ κ α : Type) where
  /-- a thread called `transactional` -/
  | called (t : τ) (k : κ)
  /-- a step of the library -/
  | library (e : Event τ ℤ)
  /-- a step of the library after which `transactional` returned -/
  | returned (e : Event τ ℤ) (k : κ) (x : α)

namespace Callers

variable [DecidableEq τ]

/-- Thread `t` is where `w` says, and the others are where they were. -/
def setCaller (c : Callers τ κ α) (t : τ) (w : Caller κ α) : Callers τ κ α :=
  { c with caller := Function.update c.caller t w }

/-- A thread, after what came of its closure. -/
def resume (k : κ) : ClosureOutcome Unit α → Caller κ α
  | .goes p => ⟨some k, some p⟩
  | .again => ⟨some k, none⟩
  | .done _ => ⟨none, none⟩

/-- What is reported of a step of the library in call `k`: the value, when the closure has come
to its end. -/
def report (k : κ) (e : Event τ ℤ) : ClosureOutcome Unit α → CallerReport τ κ α
  | .done x => .returned e k x
  | _ => .library e

/-- The transition function. The transactions of the program are `tx`: the mode and the
closure that `transactional` is called with. -/
def step (tx : κ → Bool × Closure α) (c : Callers τ κ α) :
    CallerAction τ κ → Option (Callers τ κ α × CallerReport τ κ α)
  | .call t k =>
    match (c.caller t).job with
    | none => some (c.setCaller t ⟨some k, none⟩, .called t k)
    | some _ => none
  | .go t =>
    match (c.caller t).job, (c.caller t).rest with
    | none, _ => none
    | some k, none => (c.state.step (openAction c.state t (tx k).1)).map fun (s', e) =>
      let rest := if e = .silent then some (tx k).2 else none
      ({ c.setCaller t ⟨some k, rest⟩ with state := s' }, .library e)
    | some k, some p => (callAction c.state t p).bind fun a =>
      (c.state.step a).map fun (s', e) =>
        ({ c.setCaller t (resume k (goOn p e)) with state := s' }, report k e (goOn p e))

end Callers

/-- A call of `transactional` that has returned. -/
structure Commit (κ α : Type) where
  /-- the transaction that was committed -/
  txn : Txn
  /-- what it was called with -/
  job : κ
  /-- what it returned -/
  value : α

/-- The step of the library that a report tells of, if it tells of one. -/
def CallerReport.event? : CallerReport τ κ α → Option (Event τ ℤ)
  | .called _ _ => none
  | .library e => some e
  | .returned e _ _ => some e

/-- The call that has returned with a report, its transaction and its value. -/
def CallerReport.commit? : CallerReport τ κ α → Option (Commit κ α)
  | .returned e k x => e.left?.map fun l => ⟨l.1, k, x⟩
  | _ => none

/-- The history of the library, without what the callers do among themselves. -/
def txEvents (h : List (CallerReport τ κ α)) : List (Event τ ℤ) :=
  h.filterMap CallerReport.event?

/-- The calls that have returned, the last one first. -/
def commits (h : List (CallerReport τ κ α)) : List (Commit κ α) :=
  h.filterMap CallerReport.commit?

/-- What is asked of a closure, with an invariant of the memory. -/
structure Closure.Sane (place : ℕ → Option Loc) (J : (Loc → ℤ) → Prop) (p : Closure α) :
    Prop where
  /-- alone, it reads and writes words there are and keeps the invariant -/
  keeps : ∀ m, J m → Comes place (fun _ m' => J m') p m
  /-- the closure writes every word it reads, if it writes at all -/
  writes : ∀ m, J m → ∀ as x, p.Leads place as (.ret x) → Consistent m as →
    ∀ ℓ v, .write ℓ v ∈ as → ∀ ℓ' w, .read ℓ' w ∈ as → ∃ v', .write ℓ' v' ∈ as

/-- The callers before the first call: nobody has called anything, and every thread is outside. -/
structure Callers.Ready [DecidableEq τ] (place : ℕ → Option Loc) (c : Callers τ κ α) : Prop where
  /-- the library is at rest -/
  atRest : c.state.AtRest
  /-- no word is written -/
  settled : c.state.region.Settled ∅
  /-- the words are there -/
  placed : Placed place ∅ c.state
  /-- the threads are elsewhere -/
  idle : ∀ t, c.caller t = ⟨none, none⟩

/-! ## The order of the calls

Each call is recorded with the accesses of the transaction that served it. The commits of the
library replay these one after the other, and this is the order of the calls. -/

section

variable {h : List (CallerReport τ κ α)} {r : CallerReport τ κ α} {e : Event τ ℤ}

theorem txEvents_cons (hr : r.event? = some e) : txEvents (r :: h) = e :: txEvents h := by
  rw [txEvents, List.filterMap_cons_some hr]
  rfl

theorem commits_cons_none (hr : r.commit? = none) : commits (r :: h) = commits h :=
  List.filterMap_cons_none hr

theorem commits_cons {b : Commit κ α} (hr : r.commit? = some b) :
    commits (r :: h) = b :: commits h :=
  List.filterMap_cons_some hr

end

section

variable [DecidableEq τ] [Fintype τ] {place : ℕ → Option Loc} {J : (Loc → ℤ) → Prop}
  {tx : κ → Bool × Closure α} {s₀ s s' : State τ ℤ} {h : List (CallerReport τ κ α)}
  {r : CallerReport τ κ α} {e : Event τ ℤ} {a : Action τ ℤ} {t : τ}

/-- What the history tells of the calls that have returned. -/
structure Served (place : ℕ → Option Loc) (tx : κ → Bool × Closure α) (s₀ : State τ ℤ)
    (h : List (CallerReport τ κ α)) (s : State τ ℤ) : Prop where
  /-- the library has run -/
  run : Run State.step freesNothing s₀ (txEvents h) s
  /-- the accesses of each of them are what its closure does -/
  leads : ∀ b ∈ commits h,
    (tx b.job).2.Leads place (accesses b.txn (txEvents h)) (.ret b.value)
  /-- each of them has its own transaction -/
  nodup : ((commits h).map Commit.txn).Nodup
  /-- these are the ones that left through `tm_end` -/
  mem : ∀ T, T ∈ (commits h).map Commit.txn ↔ Ended (txEvents h) T

/-- **A serial order of the calls**, if the closures found the invariant. -/
theorem Served.serial (hc : Served place tx s₀ h s) (hrest : s₀.AtRest)
    (hset : s₀.region.Settled ∅) (hsane : ∀ k, (tx k).2.Sane place J)
    (hJ : ∀ k, s₀.epoch ≤ k → k < s.epoch → J (epochMem s₀.committed k (txEvents h))) :
    ∃ order : List (Commit κ α),
      order.Perm ((commits h).filter fun b => b.txn.epoch < s.epoch) ∧
      Respects (Precedes (txEvents h)) (order.map Commit.txn) ∧
      Prog.InSequence (Memory.ofPlaces place) ()
        (order.map fun b => ((tx b.job).2, b.value)) s₀.committed s.committed := by
  have hacyclic : ∀ k, s₀.epoch ≤ k → k < s.epoch →
      AcyclicOn (ComesBefore (fun T => accesses T (txEvents h))
        (epochMem s₀.committed k (txEvents h))) (endedIn k (txEvents h)).dedup := by
    intro k hge hk
    refine (oneSnapshot hrest hset hc.run hge hk).acyclicOn fun T hT hwrites ℓ v hread => ?_
    obtain ⟨hended, rfl⟩ := mem_endedIn.mp (List.mem_dedup.mp hT)
    obtain ⟨b, hb, rfl⟩ := List.mem_map.mp ((hc.mem T).mpr hended)
    obtain ⟨ℓ', w, hw⟩ := hwrites
    obtain ⟨pre, post, has, -⟩ := hread
    have hr : .read ℓ v ∈ accesses b.txn (txEvents h) := by
      rw [has]
      exact List.mem_append_right _ List.mem_cons_self
    obtain ⟨v', hv'⟩ := (hsane b.job).writes _ (hJ _ hge hk) _ _ (hc.leads b hb)
      (consistent_accesses hrest hset hc.run b.txn) _ _ (mem_of_lastIn hw) _ _ hr
    exact lastIn_isSome hv'
  obtain ⟨order, ho⟩ := (exists_strictlySerial_iff hrest hset hc.run).mpr hacyclic
  have hperm : order.Perm
      (((commits h).filter fun b => b.txn.epoch < s.epoch).map Commit.txn) := by
    refine (List.perm_ext_iff_of_nodup ho.nodup ?_).mpr ?_
    · exact hc.nodup.sublist (List.filter_sublist.map _)
    · intro T
      rw [ho.mem T, ← hc.mem T]
      simp only [List.mem_map, List.mem_filter, decide_eq_true_eq]
      constructor
      · rintro ⟨⟨b, hb, rfl⟩, hlt⟩
        exact ⟨b, ⟨hb, hlt⟩, rfl⟩
      · rintro ⟨b, ⟨hb, hlt⟩, rfl⟩
        exact ⟨⟨b, hb, rfl⟩, hlt⟩
  obtain ⟨blocks, hblocks, rfl⟩ := exists_perm_of_map hperm
  refine ⟨blocks, hblocks, ho.realTime, ?_⟩
  have hreplays := ho.replays
  rw [List.flatMap_map] at hreplays
  refine Prog.inSequence_of_replays ?_ hreplays
  intro b hb
  exact hc.leads b (List.mem_filter.mp (hblocks.mem_iff.mp hb)).1

/-- The committed memory keeps the invariant. -/
theorem Served.keeps (hc : Served place tx s₀ h s) (hrest : s₀.AtRest)
    (hset : s₀.region.Settled ∅) (hsane : ∀ k, (tx k).2.Sane place J)
    (hJ₀ : J s₀.committed)
    (hJ : ∀ k, s₀.epoch ≤ k → k < s.epoch → J (epochMem s₀.committed k (txEvents h))) :
    J s.committed := by
  obtain ⟨order, -, -, hseq⟩ := hc.serial hrest hset hsane hJ
  refine hseq.keeps ?_ hJ₀
  intro b hb m hm
  obtain ⟨b, -, rfl⟩ := List.mem_map.mp hb
  exact ((hsane b.job).keeps m hm).2

/-- A transaction that has left does nothing more. -/
theorem Served.settled (hc : Served place tx s₀ h s) (hrest : s₀.AtRest)
    (hm : MovesAlone s t e s') {b : Commit κ α} (hb : b ∈ commits h) :
    accesses b.txn (e :: txEvents h) = accesses b.txn (txEvents h) := by
  have hended := (hc.mem b.txn).mp (List.mem_map_of_mem hb)
  exact accesses_cons_of_txn
    ((Books.run hrest hc.run).txn_of_left hm (hasLeft_iff.mpr (.inl hended)))

/-- A step of the library after which nobody returns. -/
theorem Served.cons_of_commit_none (hc : Served place tx s₀ h s) (hrest : s₀.AtRest)
    (hs : s.step a = some (s', e)) (he : e.isFree = false) (hr : r.event? = some e)
    (hnone : r.commit? = none) (hn : ∀ T b, e ≠ .ended T b) :
    Served place tx s₀ (r :: h) s' := by
  refine ⟨?_, ?_, ?_, ?_⟩
  · rw [txEvents_cons hr]
    exact hc.run.next hs he
  · intro b hb
    rw [commits_cons_none hnone] at hb
    rw [txEvents_cons hr, hc.settled hrest (step_movesAlone hs) hb]
    exact hc.leads b hb
  · rw [commits_cons_none hnone]
    exact hc.nodup
  · intro T
    rw [commits_cons_none hnone, txEvents_cons hr, hc.mem T]
    refine ⟨fun ⟨b, hb⟩ => ⟨b, List.mem_cons_of_mem _ hb⟩, fun ⟨b, hb⟩ => ⟨b, ?_⟩⟩
    exact (List.mem_cons.mp hb).resolve_left fun heq => hn T b heq.symm

/-- A step of the library after which a call returns puts this call on the record. -/
theorem Served.cons_of_commit {id : ℕ} {last : Bool} {b : Commit κ α} (hc : Served place tx s₀ h s)
    (hrest : s₀.AtRest) (hs : s.step a = some (s', .ended (s.txn id) last))
    (hin : InCall s t id .rest) (hr : r.event? = some (.ended (s.txn id) last))
    (hb : r.commit? = some b) (htxn : b.txn = s.txn id)
    (hleads : (tx b.job).2.Leads place (accesses (s.txn id) (txEvents h)) (.ret b.value)) :
    Served place tx s₀ (r :: h) s' := by
  have hfresh : ¬ Ended (txEvents h) (s.txn id) := fun hended =>
    ((Books.run hrest hc.run).ids.holds.mp hin.client).2 (hasLeft_iff.mpr (.inl hended))
  refine ⟨?_, ?_, ?_, ?_⟩
  · rw [txEvents_cons hr]
    exact hc.run.next hs rfl
  · intro b' hb'
    rw [commits_cons hb] at hb'
    rw [txEvents_cons hr]
    rcases List.mem_cons.mp hb' with rfl | hb'
    · rw [htxn]
      exact hleads
    · rw [hc.settled hrest (step_movesAlone hs) hb']
      exact hc.leads b' hb'
  · rw [commits_cons hb, List.map_cons, List.nodup_cons, htxn, hc.mem]
    exact ⟨hfresh, hc.nodup⟩
  · intro T
    rw [commits_cons hb, List.map_cons, List.mem_cons, htxn, hc.mem T, txEvents_cons hr]
    constructor
    · rintro (rfl | ⟨b', hb'⟩)
      · exact ⟨last, List.mem_cons_self⟩
      · exact ⟨b', List.mem_cons_of_mem _ hb'⟩
    · rintro ⟨b', hb'⟩
      rcases List.mem_cons.mp hb' with heq | hb'
      · injection heq with hT
        exact .inl hT
      · exact .inr ⟨b', hb'⟩

/-! ## The threads

Where a thread of the library can be is known from how far its closure is: outside between the
calls, in `tm_begin` before the first access, and at rest between two accesses. -/

/-- How far a thread is, and where it is in the library then. -/
structure Calls (place : ℕ → Option Loc) (J : (Loc → ℤ) → Prop) (tx : κ → Bool × Closure α)
    (m₀ : Loc → ℤ) (h : List (Event τ ℤ)) (s : State τ ℤ) (w : Caller κ α) (t : τ) : Prop where
  /-- between two calls it is outside -/
  away : w.job = none → s.client t = .outside
  /-- before its closure it is in `tm_begin` -/
  opening : w.rest = none → Opening h s t
  /-- past `tm_begin` it is in the closure -/
  closure : ∀ p, w.rest = some p → ∃ k, w.job = some k ∧
    InClosure place (OnCourse place (fun _ m => J m) (tx k).2) m₀ h s t p

/-- A step of another thread leaves a thread as far as it was. -/
theorem Calls.of_other {m₀ : Loc → ℤ} {g : List (Event τ ℤ)} {w : Caller κ α} {u : τ}
    (hc : Calls place J tx m₀ g s w u) (hs : Step s e s') (hm : MovesAlone s t e s')
    (hb : Books g s) (hu : u ≠ t) : Calls place J tx m₀ (e :: g) s' w u := by
  refine ⟨fun hj => ?_, fun hr => (hc.opening hr).of_other hs hm hb hu, fun p hp => ?_⟩
  · rcases hm.client u hu with heq | heq
    · rw [heq]
      exact hc.away hj
    · rw [heq, hc.away hj]
      rfl
  · obtain ⟨k, hk, hin⟩ := hc.closure p hp
    exact ⟨k, hk, (hin.of_other hs hm hb hu).1⟩

omit [DecidableEq τ] [Fintype τ] in
/-- A thread that has left the library is between two calls. -/
theorem Calls.outside {m₀ : Loc → ℤ} {g : List (Event τ ℤ)} {k : Option κ}
    (hout : s.client t = .outside) : Calls place J tx m₀ g s ⟨k, none⟩ t := by
  refine ⟨fun _ => hout, fun _ => .waiting fun id => ?_, fun p hp => ?_⟩
  · rw [hout]
    simp
  · cases hp

/-- The invariant of the callers: what the library guarantees, the record of the calls, and how
far each thread is. -/
structure Calling (place : ℕ → Option Loc) (J : (Loc → ℤ) → Prop) (tx : κ → Bool × Closure α)
    (s₀ : State τ ℤ) (h : List (CallerReport τ κ α)) (c : Callers τ κ α) : Prop where
  /-- the calls that have returned -/
  served : Served place tx s₀ h c.state
  /-- the words are there -/
  placed : Placed place ∅ c.state
  /-- every epoch has started from a memory with the invariant -/
  good : ∀ k, s₀.epoch ≤ k → k ≤ c.state.epoch → J (epochMem s₀.committed k (txEvents h))
  /-- the threads -/
  calls : ∀ t, Calls place J tx s₀.committed (txEvents h) c.state (c.caller t) t

namespace Calling

variable {c c' : Callers τ κ α} {w : Caller κ α} {k : κ}

theorem isolated (hc : Calling place J tx s₀ h c) (hrest : s₀.AtRest)
    (hset : s₀.region.Settled ∅) : Isolated s₀.committed ∅ (txEvents h) c.state :=
  .run (fun _ _ _ => avoids_of_freesNothing) hrest hset hc.served.run

/-- The memory that the current epoch has started from. -/
theorem good_committed (hc : Calling place J tx s₀ h c) (hrest : s₀.AtRest)
    (hset : s₀.region.Settled ∅) : J c.state.committed := by
  have hi := hc.isolated hrest hset
  have hmem : epochMem s₀.committed c.state.epoch (txEvents h) = c.state.committed := by
    funext ℓ
    rw [hi.words.mem, ← hi.committed (Set.notMem_empty _)]
  rw [← hmem]
  exact hc.good _ hc.served.run.epoch_le le_rfl

/-- A step of the library that is one of a thread's call keeps the invariant, if the thread
stands where its new rest says. -/
theorem library (hc : Calling place J tx s₀ h c) (hrest : s₀.AtRest)
    (hset : s₀.region.Settled ∅) (hsane : ∀ k, (tx k).2.Sane place J) (hJ₀ : J s₀.committed)
    (hs : c.state.step a = some (s', e)) (ha : a.thread = t) (hmod : Modest ∅ e)
    (hr : r.event? = some e) (hserved : Served place tx s₀ (r :: h) s')
    (hw : Calls place J tx s₀.committed (e :: txEvents h) s' w t) :
    Calling place J tx s₀ (r :: h) { c.setCaller t w with state := s' } := by
  have hstep := step_cases hs
  have hm : MovesAlone c.state t e s' := ha ▸ step_movesAlone hs
  have hi := hc.isolated hrest hset
  have hone : Run State.step freesNothing c.state [e] s' := .next .start hs hmod.frees
  have hgood : ∀ k, s₀.epoch ≤ k → k ≤ c.state.epoch →
      J (epochMem s₀.committed k (txEvents (r :: h))) := by
    intro k hge hk
    have hsame : epochMem s₀.committed k ([e] ++ txEvents h) = _ := hone.epochMem_append hk
    rw [txEvents_cons hr]
    exact hsame ▸ hc.good k hge hk
  refine ⟨hserved, hc.placed.step hstep hmod.keeps, ?_, ?_⟩
  · intro k hge hk
    rcases hstep.epoch with ⟨-, hep⟩ | ⟨-, -, hep⟩
    · exact hgood k hge (hep ▸ hk)
    · obtain hlt | rfl := hk.lt_or_eq
      · have hlt : k < s'.epoch := hlt
        exact hgood k hge (by omega)
      · -- the epoch has ended: its calls have an order, in which each keeps the invariant
        have hi' := hi.step hstep hmod.avoids
        have hmem : epochMem s₀.committed s'.epoch (txEvents (r :: h)) = s'.committed := by
          funext ℓ
          rw [txEvents_cons hr, hi'.words.mem, ← hi'.committed (Set.notMem_empty _)]
        show J (epochMem s₀.committed s'.epoch (txEvents (r :: h)))
        rw [hmem]
        refine hserved.keeps hrest hset hsane hJ₀ fun k hge hk => hgood k hge ?_
        omega
  · intro u
    rw [txEvents_cons hr]
    obtain rfl | hu := eq_or_ne u t
    · show Calls _ _ _ _ _ _ (Function.update c.caller u w u) u
      rw [Function.update_self]
      exact hw
    · show Calls _ _ _ _ _ _ (Function.update c.caller t w u) u
      rw [Function.update_of_ne hu]
      exact (hc.calls u).of_other hstep hm hi.books hu

/-- A step of `tm_begin` keeps the invariant, and the thread enters its closure or not. -/
theorem opened (hc : Calling place J tx s₀ h c) (hrest : s₀.AtRest)
    (hset : s₀.region.Settled ∅) (hsane : ∀ k, (tx k).2.Sane place J) (hJ₀ : J s₀.committed)
    (hrun : (c.caller t).rest = none)
    (hs : c.state.step (openAction c.state t (tx k).1) = some (s', e)) :
    Calling place J tx s₀ (.library e :: h)
      { c.setCaller t ⟨some k, if e = .silent then some (tx k).2 else none⟩ with state := s' } := by
  have hi := hc.isolated hrest hset
  have ha : (openAction c.state t (tx k).1).thread = t := openAction_thread
  obtain ⟨hmod, hl, hcases⟩ :=
    ((hc.calls t).opening hrun).step hi (.run hrest hc.served.run) hs
  have hended : ∀ T b, e ≠ .ended T b := by
    rintro T b rfl
    cases hl
  apply hc.library hrest hset hsane hJ₀ hs ha hmod rfl
    (hc.served.cons_of_commit_none hrest hs hmod.frees rfl rfl hended)
  rcases hcases with ⟨hne, hop⟩ | ⟨rfl, id, hin, -, hnone, hview⟩
  · rw [if_neg hne]
    refine ⟨fun hj => ?_, fun _ => hop, fun p hp => ?_⟩
    · cases hj
    · cases hp
  · rw [if_pos rfl]
    refine ⟨?_, ?_, ?_⟩
    · intro hj
      cases hj
    · intro hr
      cases hr
    · intro p hp
      -- the closure starts on what is committed
      obtain rfl := Option.some.inj hp
      refine ⟨k, rfl, id, .rest, hin, .rest ⟨?_, ?_⟩⟩
      · rw [hnone]
        exact .start
      · have hmem : view s₀.committed (.silent :: txEvents h) (s'.txn id) = c.state.committed :=
          funext fun ℓ => hview ℓ (Set.notMem_empty _)
        rw [hmem]
        exact (hsane k).keeps _ (hc.good_committed hrest hset)

/-- A step of the closure keeps the invariant: the access is served, or the transaction ends
and the call returns. -/
theorem called {p : Closure α} (hc : Calling place J tx s₀ h c) (hrest : s₀.AtRest)
    (hset : s₀.region.Settled ∅) (hsane : ∀ k, (tx k).2.Sane place J) (hJ₀ : J s₀.committed)
    (hjob : (c.caller t).job = some k) (hrun : (c.caller t).rest = some p)
    (ha : callAction c.state t p = some a) (hs : c.state.step a = some (s', e)) :
    Calling place J tx s₀ (Callers.report k e (goOn p e) :: h)
      { c.setCaller t (Callers.resume k (goOn p e)) with state := s' } := by
  obtain ⟨k', hk', hin⟩ := (hc.calls t).closure p hrun
  obtain rfl : k = k' := Option.some.inj (hjob.symm.trans hk')
  obtain ⟨hmod, hturned⟩ :=
    hin.step OnCourse.sustained (hc.isolated hrest hset) hc.placed ha hs
  have ha : a.thread = t := callAction_thread ha
  generalize goOn p e = o at hturned
  cases hturned with
  | @goes q hin hep hl =>
    have hended : ∀ T b, e ≠ .ended T b := by
      rintro T b rfl
      cases hl
    refine hc.library hrest hset hsane hJ₀ hs ha hmod rfl
      (hc.served.cons_of_commit_none hrest hs hmod.frees rfl rfl hended) ⟨?_, ?_, ?_⟩
    · intro hj
      cases hj
    · intro hr
      cases hr
    · intro p hp
      obtain rfl := Option.some.inj hp
      exact ⟨k, rfl, hin⟩
  | again he hout =>
    have hended : ∀ T b, e ≠ .ended T b := by
      rintro T b rfl
      cases he
    exact hc.library hrest hset hsane hJ₀ hs ha hmod rfl
      (hc.served.cons_of_commit_none hrest hs hmod.frees rfl rfl hended) (.outside hout)
  | done hcall he hout hend =>
    subst he
    exact hc.library hrest hset hsane hJ₀ hs ha hmod rfl
      (hc.served.cons_of_commit hrest hs hcall rfl rfl rfl hend.leads) (.outside hout)

/-- **A step of a thread** keeps the invariant, be it in `tm_begin`, in the closure or between
two calls. -/
theorem step {action : CallerAction τ κ} (hc : Calling place J tx s₀ h c) (hrest : s₀.AtRest)
    (hset : s₀.region.Settled ∅) (hsane : ∀ k, (tx k).2.Sane place J) (hJ₀ : J s₀.committed)
    (hs : c.step tx action = some (c', r)) : Calling place J tx s₀ (r :: h) c' := by
  cases action with
  | call t k =>
    simp only [Callers.step] at hs
    split at hs
    · rename_i hjob
      obtain ⟨rfl, rfl⟩ := Prod.mk.inj (Option.some.inj hs)
      have hout := (hc.calls t).away hjob
      refine ⟨⟨hc.served.run, hc.served.leads, hc.served.nodup, hc.served.mem⟩, hc.placed, hc.good,
        ?_⟩
      intro u
      obtain rfl | hu := eq_or_ne u t
      · show Calls _ _ _ _ _ _ (Function.update c.caller u _ u) u
        rw [Function.update_self]
        exact .outside hout
      · show Calls _ _ _ _ _ _ (Function.update c.caller t _ u) u
        rw [Function.update_of_ne hu]
        exact hc.calls u
    · cases hs
  | go t =>
    simp only [Callers.step] at hs
    split at hs
    · cases hs
    · rename_i k hjob hrun
      obtain ⟨⟨s', e⟩, hstep, heq⟩ := Option.map_eq_some_iff.mp hs
      obtain ⟨rfl, rfl⟩ := Prod.mk.inj heq
      exact hc.opened hrest hset hsane hJ₀ hrun hstep
    · rename_i k p hjob hrun
      obtain ⟨a, ha, hs⟩ := Option.bind_eq_some_iff.mp hs
      obtain ⟨⟨s', e⟩, hstep, heq⟩ := Option.map_eq_some_iff.mp hs
      obtain ⟨rfl, rfl⟩ := Prod.mk.inj heq
      exact hc.called hrest hset hsane hJ₀ hjob hrun ha hstep

end Calling

/-- **Closures are atomic blocks.** In every run of threads that call closures that keep `J`
and write what they read, the calls that returned in epochs that are over have an order, which
respects real time and in which the closures, run alone one after the other, return what the
calls have returned and leave the committed memory; and that memory has `J`. -/
theorem Callers.atomic {c₀ c : Callers τ κ α} (hready : c₀.Ready place)
    (hsane : ∀ k, (tx k).2.Sane place J) (hJ₀ : J c₀.state.committed)
    (hr : Run (Callers.step tx) anyStep c₀ h c) :
    J c.state.committed ∧ ∃ order : List (Commit κ α),
      order.Perm ((commits h).filter fun b => b.txn.epoch < c.state.epoch) ∧
      Respects (Precedes (txEvents h)) (order.map Commit.txn) ∧
      Prog.InSequence (Memory.ofPlaces place) ()
        (order.map fun b => ((tx b.job).2, b.value)) c₀.state.committed c.state.committed := by
  have hc : Calling place J tx c₀.state h c := by
    induction hr with
    | start =>
      refine ⟨⟨.start, fun b hb => ?_, List.nodup_nil, fun T => ?_⟩, hready.placed,
        fun _ _ _ => hJ₀, fun t => ?_⟩
      · cases hb
      · simp [commits, txEvents, Ended]
      · rw [hready.idle t]
        exact .outside (hready.atRest.1.2 t)
    | next _ hs _ ih => exact ih.step hready.atRest hready.settled hsane hJ₀ hs
  refine ⟨hc.good_committed hready.atRest hready.settled, ?_⟩
  exact hc.served.serial hready.atRest hready.settled hsane fun k hge hk => hc.good k hge hk.le

end

end DualStm
