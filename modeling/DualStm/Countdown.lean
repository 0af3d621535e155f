import DualStm.Check
import DualStm.Library.Progress
import DualStm.Updates

/-!
# The grader does not accuse this library

Whatever the workers of `check` do, in any order of their steps and with any aborts, none
of them returns an error.

The library is not serializable, so this is about what `check` does with it: each
transaction that lowers the counter has read it before. What counts is the value the
word will have when the epoch ends, `standing`: the committed one, or what a transaction
of this epoch that has left through `tm_end` has written. A step of the library changes
it only when a transaction that has written the word leaves; this one then is the only
one of the epoch, so it has read what all before it have left.
-/

namespace DualStm

/-! ## What a word will be when the epoch ends

While an epoch is on, a word has its committed value and what the transactions that have left
through `tm_end` wrote. The next commit makes this its committed value, and until then only
such a transaction moves it. -/

section

variable {τ : Type} [DecidableEq τ] [Fintype τ] {m₀ : Loc → ℤ} {dead : Set ℕ}
  {h : List (Event τ ℤ)} {s s' : State τ ℤ} {e : Event τ ℤ} {t : τ} {ℓ : Loc} {T : Txn}

/-- The value the word will have when the epoch ends, if nobody else leaves. -/
def standing (h : List (Event τ ℤ)) (s : State τ ℤ) (ℓ : Loc) : ℤ :=
  (committedWrite s.epoch ℓ h).getD (s.committed ℓ)

/-- A transaction that has left through `tm_end` is of this epoch or of an earlier one. -/
theorem Books.ended_le (hb : Books h s) (hT : Ended h T) : T.epoch ≤ s.epoch := by
  rcases hb.ids.begun_lt (hb.ids.begun_of_left (hasLeft_iff.mpr (.inl hT))) with hlt | ⟨heq, -⟩
  · exact hlt.le
  · exact heq.le

/-- What a transaction that has left wrote is settled. -/
theorem Books.lastWrite_of_ended (hb : Books h s) (hm : MovesAlone s t e s') (hT : Ended h T) :
    lastWrite T ℓ (e :: h) = lastWrite T ℓ h :=
  lastWrite_cons_of_txn (hb.txn_of_left hm (hasLeft_iff.mpr (.inl hT)))

/-- A step of the library decides what the word will be. -/
theorem standing_eq (hi : Isolated m₀ dead h s) (hs : Step s e s') (he : e.avoids dead)
    (hd : ℓ.1 ∉ dead) :
    standing (e :: h) s' ℓ = (committedWrite s.epoch ℓ (e :: h)).getD (s.committed ℓ) := by
  have hi' := hi.step hs he
  rw [standing, hi'.committed hd, hi.committed hd]
  rcases hs.epoch with ⟨hc, hep⟩ | ⟨⟨id, hl⟩, -, hep⟩
  · rw [hep, committedMem_cons hc]
  · have hnone : committedWrite s'.epoch ℓ (e :: h) = none := by
      apply committedWrite_eq_none
      intro U hU hUep
      obtain ⟨b, hmem⟩ := hU
      rcases List.mem_cons.mp hmem with rfl | hmem
      · have hleft := hs.left_epoch (T := U) (b := b) rfl
        omega
      · have hle := hi.books.ended_le ⟨b, hmem⟩
        omega
    rw [hnone, committedMem_closing hl]
    rfl

/-- Only a transaction that leaves through `tm_end` moves what a word will be. -/
theorem standing_of_not_ended (hi : Isolated m₀ dead h s) (hs : Step s e s')
    (hm : MovesAlone s t e s') (he : e.avoids dead) (hd : ℓ.1 ∉ dead)
    (hn : ∀ T b, e ≠ .ended T b) : standing (e :: h) s' ℓ = standing h s ℓ := by
  have hended : endedIn s.epoch (e :: h) = endedIn s.epoch h := by
    apply List.filterMap_cons_none
    cases e with
    | ended T b => exact absurd rfl (hn T b)
    | _ => rfl
  rw [standing_eq hi hs he hd, committedWrite, hended, standing, committedWrite]
  refine congrArg (Option.getD · _) (findSome?_congr ?_)
  intro T hT
  exact hi.books.lastWrite_of_ended hm (mem_endedIn.mp hT).1

/-- A transaction that leaves through `tm_end` moves what a word will be to what it wrote
there. -/
theorem standing_ended {b : Bool} (hi : Isolated m₀ dead h s) (hs : Step s (.ended T b) s')
    (hm : MovesAlone s t (.ended T b) s') (hd : ℓ.1 ∉ dead) :
    standing (.ended T b :: h) s' ℓ = (lastWrite T ℓ h).getD (standing h s ℓ) := by
  have hep : T.epoch = s.epoch := hs.left_epoch rfl
  have hended : endedIn s.epoch (.ended T b :: h) = T :: endedIn s.epoch h :=
    List.filterMap_cons_some (if_pos hep)
  have hothers : (endedIn s.epoch h).findSome? (fun U => lastWrite U ℓ (.ended T b :: h)) =
      (endedIn s.epoch h).findSome? fun U => lastWrite U ℓ h :=
    findSome?_congr fun U hU => hi.books.lastWrite_of_ended hm (mem_endedIn.mp hU).1
  rw [standing_eq hi hs trivial hd, committedWrite, hended, List.findSome?_cons, hothers]
  have hself : lastWrite T ℓ (.ended T b :: h) = lastWrite T ℓ h := rfl
  rw [hself, standing, committedWrite]
  cases lastWrite T ℓ h <;> rfl

/-- **The only writer.** Once a transaction inside has written the word, nobody who has left
in this epoch has. -/
theorem standing_of_lastWrite {id : ℕ} {w : ℤ} (hi : Isolated m₀ dead h s)
    (hc : InCall s t id .rest) (hd : ℓ.1 ∉ dead) (hw : lastWrite (s.txn id) ℓ h = some w) :
    standing h s ℓ = s.committed ℓ := by
  have hnotLeft := (hi.books.ids.holds.mp hc.client).2
  have hpending : pending (s.txn id) ℓ h = some w := by
    rw [hi.writes.pending_eq (fun ha => hnotLeft (hasLeft_iff.mpr (.inr ha))), hw]
    rintro i j ⟨u, hu, -, hcu⟩
    rw [hi.books.gate.id_inj hu hc.client, hc.call] at hcu
    cases hcu
  rw [standing, committedWrite_eq_none]
  · rfl
  · intro U hU hep
    cases hUw : lastWrite U ℓ h with
    | none => rfl
    | some v =>
      have hUpending : pending U ℓ h = some v := by
        rw [hi.writes.pending_eq (hi.writes.once hU), hUw]
        rintro i j ⟨u, hu, hUep, -⟩
        have htxn : s.txn U.id = U := by rw [State.txn, ← hep]
        refine (hi.books.ids.holds.mp hu).2 (hasLeft_iff.mpr (.inl ?_))
        show Ended h (s.txn U.id)
        rw [htxn]
        exact hU
      apply absurd (hi.unique hd hep hUpending hpending)
      rintro rfl
      exact hnotLeft (hasLeft_iff.mpr (.inl hU))

/-- With nobody inside there is nothing to come. -/
theorem standing_of_outside (hi : Isolated m₀ dead h s) (hout : ∀ t, s.client t = .outside) :
    standing h s ℓ = s.committed ℓ := by
  have hzero : ∀ p : Client → Bool, p .outside = false → countOf p s.gate.client = 0 := by
    intro p hp
    rw [countOf_eq_zero]
    intro t
    rw [show s.gate.client t = .outside from hout t, hp]
  have hremaining := hi.books.gate.remaining
  rw [hzero _ rfl, hzero _ rfl] at hremaining
  have hidle := (hi.books.gate.idle hremaining).2
  have hgen := hi.books.gate.inEpoch
  rw [hzero _ rfl, hidle] at hgen
  rw [standing, committedWrite_eq_none]
  · rfl
  · intro U hU hep
    rcases hi.books.ids.begun_lt (hi.books.ids.begun_of_left (hasLeft_iff.mpr (.inl hU)))
      with hlt | ⟨-, hlt⟩
    · exact absurd hep hlt.ne
    · omega

/-- What a transaction saw of the word when it leaves is what was committed, and the word is
to be what it was to be; or it has written it, and the word is to be that. -/
theorem standing_done {id : ℕ} {last : Bool} (hi : Isolated m₀ dead h s)
    (hs : Step s (.ended (s.txn id) last) s') (hm : MovesAlone s t (.ended (s.txn id) last) s')
    (hc : InCall s t id .rest) (hd : ℓ.1 ∉ dead) :
    standing (.ended (s.txn id) last :: h) s' ℓ = standing h s ℓ ∧
        view m₀ h (s.txn id) ℓ = s.committed ℓ ∨
      standing (.ended (s.txn id) last :: h) s' ℓ = view m₀ h (s.txn id) ℓ ∧
        standing h s ℓ = s.committed ℓ := by
  rw [standing_ended hi hs hm hd, view]
  cases hw : lastWrite (s.txn id) ℓ h with
  | none =>
    refine .inl ⟨rfl, ?_⟩
    rw [hi.committed hd, ← hi.words.mem]
    rfl
  | some w => exact .inr ⟨rfl, standing_of_lastWrite hi hc hd hw⟩

/-- What is committed after a step is what was, or what was to come. -/
theorem committed_step (hi : Isolated m₀ dead h s) (hs : Step s e s') (he : e.avoids dead)
    (hd : ℓ.1 ∉ dead) :
    s'.epoch = s.epoch ∧ s'.committed ℓ = s.committed ℓ ∨
      s'.epoch = s.epoch + 1 ∧ s'.committed ℓ = standing (e :: h) s' ℓ := by
  have hi' := hi.step hs he
  rcases hs.epoch with ⟨hc, hep⟩ | ⟨⟨id, hl⟩, -, hep⟩
  · refine .inl ⟨hep, ?_⟩
    rw [hi'.committed hd, hi.committed hd, committedMem_cons hc]
  · refine .inr ⟨hep, ?_⟩
    rw [standing_eq hi hs he hd, hi'.committed hd, hi.committed hd, committedMem_closing hl]

end

/-! ## The statements

A statement of `check` is a closure, an access of the barrier or the end. Which round of the
barrier it belongs to, and how often it has lowered the counter before, can be told from the
statement. -/

/-- How often a worker there has returned from `barrier.sync()`. -/
def CheckPc.rounds : CheckPc → ℕ
  | .meet => 0
  | .store | .verify | .assemble => 1
  | .fetch _ | .decrease _ _ | .part => 2
  | _ => 3

/-- The next step of a worker there is one of `barrier.sync()`. -/
def CheckPc.atBarrier : CheckPc → Bool
  | .meet | .assemble | .part | .bail _ _ => true
  | _ => false

/-- How often it has lowered the counter. -/
def CheckPc.lowered : CheckPc → ℕ
  | .fetch i | .decrease i _ => i
  | .part | .finish | .returned _ => Check.nbtxperwrk
  | _ => 0

/-- The statement is for worker 0 only. -/
def CheckPc.isFirst : CheckPc → Bool
  | .store | .verify | .finish => true
  | _ => false

/-- At the statement the counter has been stored. -/
def CheckPc.isPrimed : CheckPc → Bool
  | .meet | .store => false
  | _ => true

/-- A worker can be there without an accusation. -/
def CheckPc.Sound (uid : ℕ) : CheckPc → Prop
  | .store | .verify | .finish => uid = 0
  | .fetch i | .decrease i _ => i < Check.nbtxperwrk
  | .bail _ _ => False
  | .returned error => error = none
  | _ => True

/-- What comes of a transaction that finds `v` committed: the next statement, and what the
counter then is. -/
def CheckPc.Post (n : ℕ) (ℓ : Loc) (v : ℤ) : CheckPc → CheckPc → (Loc → ℤ) → Prop
  | .store, next, m => next = .verify ∧ m ℓ = Check.initCounter n
  | .verify, next, m => next = .assemble ∧ m ℓ = v
  | .fetch i, next, m => next = .decrease i v.toNat ∧ m ℓ = v
  | .decrease i _, next, m => next = Check.loopHead (i + 1) ∧ m ℓ = v - 1
  | .finish, next, m => next = .returned none ∧ m ℓ = v
  | _, _, _ => False

/-- What a transaction finds committed when nobody has done anything wrong. -/
def CheckPc.Finds (n : ℕ) (v : ℤ) : CheckPc → Prop
  | .verify => v = Check.initCounter n
  | .fetch _ => 0 ≤ v
  | .decrease _ last => 1 ≤ v ∧ v ≤ last
  | .finish => v = 0
  | _ => True

section

variable {n start : ℕ} {ℓ : Loc} {v : ℤ} {m : Loc → ℤ} {pc : CheckPc} {isRo : Bool}
  {closure : Closure CheckPc}

/-- **The closures, run alone.** Each of them finds the counter at what it should be, and
leaves it as the statement after it expects. -/
theorem comes_transaction (ht : Check.transaction n start pc = some (isRo, closure))
    (hfinds : pc.Finds n v) (hv : m ℓ = v) :
    Comes (counterAt start ℓ) (pc.Post n ℓ v) closure m := by
  have hplace : counterAt start ℓ start = some ℓ := if_pos rfl
  have hread : (Memory.ofPlaces (counterAt start ℓ)).read m start = some v := by
    rw [Memory.ofPlaces, ← hv]
    simp only [hplace, Option.map_some]
  have hwrite : ∀ w : ℤ, (Memory.ofPlaces (counterAt start ℓ)).write m start w =
      some (Function.update m ℓ w) := by
    intro w
    simp only [Memory.ofPlaces, hplace, Option.map_some]
  cases pc with
  | store =>
    obtain ⟨-, rfl⟩ := Prod.mk.inj (Option.some.inj ht)
    exact ⟨trivial, _, hwrite _, rfl, Function.update_self ..⟩
  | verify =>
    obtain ⟨-, rfl⟩ := Prod.mk.inj (Option.some.inj ht)
    refine ⟨fun _ => trivial, v, hread, if_pos ?_, hv⟩
    rw [show v = _ from hfinds, Int.toNat_natCast]
  | fetch i =>
    obtain ⟨-, rfl⟩ := Prod.mk.inj (Option.some.inj ht)
    exact ⟨fun _ => trivial, v, hread, rfl, hv⟩
  | decrease i last =>
    obtain ⟨-, rfl⟩ := Prod.mk.inj (Option.some.inj ht)
    obtain ⟨hpos, hlast⟩ : 1 ≤ v ∧ v ≤ last := hfinds
    have hdec : (decrement v.toNat : ℤ) = v - 1 := by
      rw [decrement, if_neg (by omega)]
      omega
    have hle : ¬ v.toNat > last := by omega
    refine ⟨?_, v, hread, ?_⟩
    · intro w
      show (if w.toNat > last then _ else _ : Closure CheckPc).Saves _
      split <;> trivial
    · show (if v.toNat > last then _ else _ : Closure CheckPc).wp _ _ _ _
      rw [if_neg hle]
      refine ⟨_, hwrite _, rfl, ?_⟩
      rw [Function.update_self, hdec]
  | finish =>
    obtain ⟨-, rfl⟩ := Prod.mk.inj (Option.some.inj ht)
    refine ⟨fun _ => trivial, v, hread, congrArg CheckPc.returned (if_pos ?_), hv⟩
    rw [show v = 0 from hfinds, Int.toNat_zero]
  | _ => cases ht

end

/-! ## The invariant

Between two rounds of the barrier the workers are all in the loop or worker 0 is by itself.
What the word of the counter will be is then `init_counter` less what all of them have taken
off. -/

/-- No thread has returned from a barrier more often than any other has called it. -/
theorem BarrierInv.returns_le_starts {τ : Type} [DecidableEq τ] [Fintype τ]
    {h : List (BarrierEvent τ)} {b : Barrier τ} (hb : BarrierInv h b) (t u : τ) :
    returns t h ≤ starts u h := by
  obtain ⟨k, hk⟩ := hb.round
  refine le_trans ?_ (le_starts hb.calls (hk u))
  have ht := hk t
  cases hm : b.mode <;> cases hp : b.pc t <;> rw [hm, hp] at ht
  case enter.waitEnter => exact (Nat.le_succ _).trans_eq ht
  all_goals
    first
    | exact ht.elim
    | exact Nat.le_of_eq ht

/-- The step of the library that a report tells of, if it tells of one. -/
def CheckReport.event? {n : ℕ} : CheckReport n → Option (Event (Fin n) ℤ)
  | .library e => some e
  | _ => none

/-- The step at the barrier that a report tells of, if it tells of one. -/
def CheckReport.sync? {n : ℕ} : CheckReport n → Option (BarrierEvent (Fin n))
  | .sync e => some e
  | _ => none

/-- The history of the library, without what happens at the barrier. -/
def libraryEvents {n : ℕ} (h : List (CheckReport n)) : List (Event (Fin n) ℤ) :=
  h.filterMap CheckReport.event?

/-- The history of the barrier, without what happens in the library. -/
def syncEvents {n : ℕ} (h : List (CheckReport n)) : List (BarrierEvent (Fin n)) :=
  h.filterMap CheckReport.sync?

/-- Where a worker is, in `check`, at the barrier and in the library. -/
structure Stands {n : ℕ} (start : ℕ) (ℓ : Loc) (m₀ : Loc → ℤ) (h : List (CheckReport n))
    (c : Checkers n) (u : Fin n) : Prop where
  /-- the worker has nothing to complain of -/
  sound : (c.checker u).pc.Sound u
  /-- the statement tells how often it has been let through the barrier -/
  rounds : returns u (syncEvents h) = (c.checker u).pc.rounds
  /-- the worker is at the barrier in a `barrier.sync()` only -/
  away : (c.checker u).pc.atBarrier = false → c.barrier.pc u = .outside
  /-- the worker is in the library in a transaction only -/
  out : Check.transaction n start (c.checker u).pc = none → c.state.client u = .outside
  /-- at first in `tm_begin` -/
  opening : (c.checker u).rest = none → Opening (libraryEvents h) c.state u
  /-- past `tm_begin` it is in the closure -/
  closure : ∀ p, (c.checker u).rest = some p → ∃ p₀, InClosure (counterAt start ℓ)
    (OnCourse (counterAt start ℓ) ((c.checker u).pc.Post n ℓ (c.state.committed ℓ)) p₀) m₀
    (libraryEvents h) c.state u p

/-- The invariant of `check`: the library's and the barrier's, how far each worker is, and what
the counter will be. -/
structure Checking {n : ℕ} [NeZero n] (start : ℕ) (ℓ : Loc) (m₀ : Loc → ℤ) (dead : Set ℕ)
    (h : List (CheckReport n)) (c : Checkers n) : Prop where
  /-- the transactions are isolated -/
  isolated : Isolated m₀ dead (libraryEvents h) c.state
  /-- only transactions that have begun have accesses -/
  recorded : Recorded (libraryEvents h)
  /-- the counter is where it was -/
  placed : Placed (counterAt start ℓ) dead c.state
  /-- the barrier meets its invariant -/
  barrier : BarrierInv (syncEvents h) c.barrier
  /-- the barrier is for all workers -/
  cardinal : c.barrier.cardinal.toNat = n
  /-- the workers -/
  stands : ∀ u, Stands start ℓ m₀ h c u
  /-- what is left of the counter is what the workers have left to do -/
  counter : (c.checker 0).pc.isPrimed = true →
    standing (libraryEvents h) c.state ℓ + (∑ u, (c.checker u).pc.lowered : ℕ) =
        (Check.nbtxperwrk * n : ℕ) ∧
      standing (libraryEvents h) c.state ℓ ≤ c.state.committed ℓ
  /-- when worker 0 is alone, nothing is to come -/
  quiet : (c.checker 0).pc.isFirst = true →
    standing (libraryEvents h) c.state ℓ = c.state.committed ℓ
  /-- nobody finds more than it has fetched -/
  fetched : ∀ {u i last}, (c.checker u).pc = .decrease i last → c.state.committed ℓ ≤ last

namespace Checking

variable {n : ℕ} [NeZero n] {start : ℕ} {ℓ : Loc} {m₀ : Loc → ℤ} {dead : Set ℕ}
  {h : List (CheckReport n)} {c : Checkers n} {u v : Fin n}

/-- No worker is a round ahead of another, unless that one is about to follow. -/
theorem rounds_le (hc : Checking start ℓ m₀ dead h c) (u v : Fin n) :
    (c.checker u).pc.rounds ≤
      (c.checker v).pc.rounds + (c.checker v).pc.atBarrier.toNat := by
  have hle := hc.barrier.returns_le_starts u v
  have hcalls := hc.barrier.calls v
  rw [(hc.stands u).rounds] at hle
  rw [(hc.stands v).rounds] at hcalls
  cases hb : (c.checker v).pc.atBarrier with
  | true =>
    rw [Bool.toNat_true]
    split at hcalls <;> omega
  | false =>
    rw [if_pos ((hc.stands v).away hb)] at hcalls
    rw [Bool.toNat_false]
    omega

/-- While worker 0 is in a transaction of its own, the others are not in any. -/
theorem transaction_of_first (hc : Checking start ℓ m₀ dead h c)
    (hf : (c.checker 0).pc.isFirst = true) (hu : u ≠ 0) :
    Check.transaction n start (c.checker u).pc = none := by
  have hle := hc.rounds_le u 0
  have hge := hc.rounds_le 0 u
  have hsound := (hc.stands u).sound
  have hne : (u : ℕ) ≠ 0 := fun h0 => hu (Fin.ext h0)
  cases hpc : (c.checker u).pc with
  | store | verify | finish =>
    rw [hpc] at hsound
    exact absurd hsound hne
  | fetch | decrease =>
    rw [hpc] at hle hge
    cases h0 : (c.checker 0).pc <;> rw [h0] at hf hle hge
    case store | verify => exact absurd (show 2 ≤ 1 from hle) (by decide)
    case finish => exact absurd (show 3 ≤ 2 from hge) (by decide)
    all_goals cases hf
  | _ => rfl

/-- While a worker is in the loop, the counter has been stored and worker 0 is not alone. -/
theorem primed_of_loop (hc : Checking start ℓ m₀ dead h c) (hr : (c.checker u).pc.rounds = 2)
    (hb : (c.checker u).pc.atBarrier = false) :
    (c.checker 0).pc.isPrimed = true ∧ (c.checker 0).pc.isFirst = false := by
  have hle := hc.rounds_le u 0
  have hge := hc.rounds_le 0 u
  rw [hr] at hle hge
  rw [hb] at hge
  cases h0 : (c.checker 0).pc <;> rw [h0] at hle hge
  case meet | store | verify => exact absurd (show 2 ≤ 1 from hle) (by decide)
  case finish => exact absurd (show 3 ≤ 2 from hge) (by decide)
  all_goals exact ⟨rfl, rfl⟩

/-- No worker lowers the counter more often than it should. -/
theorem lowered_le (hc : Checking start ℓ m₀ dead h c) (u : Fin n) :
    (c.checker u).pc.lowered ≤ Check.nbtxperwrk := by
  have hsound := (hc.stands u).sound
  cases hpc : (c.checker u).pc with
  | fetch i | decrease i last =>
    rw [hpc] at hsound
    exact le_of_lt hsound
  | part | finish | returned => exact le_rfl
  | _ => exact Nat.zero_le _

/-- Before the loop no worker has lowered the counter. -/
theorem lowered_of_verify (hc : Checking start ℓ m₀ dead h c) (h0 : (c.checker 0).pc.rounds = 1)
    (hb : (c.checker 0).pc.atBarrier = false) (u : Fin n) : (c.checker u).pc.lowered = 0 := by
  have hle := hc.rounds_le u 0
  have hsound := (hc.stands u).sound
  rw [h0, hb] at hle
  cases hpc : (c.checker u).pc <;> rw [hpc] at hle hsound
  case fetch | decrease | part => exact absurd (show 2 ≤ 1 from hle) (by decide)
  case finish | returned => exact absurd (show 3 ≤ 1 from hle) (by decide)
  all_goals rfl

/-- After the loop every worker has lowered the counter as often as it should. -/
theorem lowered_of_finish (hc : Checking start ℓ m₀ dead h c) (h0 : (c.checker 0).pc.rounds = 3)
    (u : Fin n) : (c.checker u).pc.lowered = Check.nbtxperwrk := by
  have hge := hc.rounds_le 0 u
  have hsound := (hc.stands u).sound
  rw [h0] at hge
  cases hpc : (c.checker u).pc <;> rw [hpc] at hge hsound
  case meet | store | verify => exact absurd (show 3 ≤ 1 from hge) (by decide)
  case assemble | fetch | decrease => exact absurd (show 3 ≤ 2 from hge) (by decide)
  case bail => exact hsound.elim
  all_goals rfl

/-- **What a transaction finds**: the counter at a value its statement has nothing to complain
of. -/
theorem finds (hc : Checking start ℓ m₀ dead h c) (hn : Check.nbtxperwrk * n < 2 ^ 64)
    (u : Fin n) : (c.checker u).pc.Finds n (c.state.committed ℓ) := by
  have hsound := (hc.stands u).sound
  have hinit : (Check.initCounter n : ℤ) = (Check.nbtxperwrk * n : ℕ) := by
    rw [Check.initCounter, Nat.mod_eq_of_lt hn]
  have hall : ∑ _u : Fin n, Check.nbtxperwrk = Check.nbtxperwrk * n := by
    simp [Nat.mul_comm]
  cases hpc : (c.checker u).pc with
  | verify =>
    rw [hpc] at hsound
    obtain rfl : u = 0 := Fin.ext hsound
    have hcounter := hc.counter (by rw [hpc]; rfl)
    have hquiet := hc.quiet (by rw [hpc]; rfl)
    have hsum : ∑ u, (c.checker u).pc.lowered = 0 :=
      Finset.sum_eq_zero fun v _ => hc.lowered_of_verify (by rw [hpc]; rfl) (by rw [hpc]; rfl) v
    rw [hsum, hquiet] at hcounter
    show c.state.committed ℓ = Check.initCounter n
    rw [hinit, ← hcounter.1, Nat.cast_zero, add_zero]
  | fetch i =>
    have hprimed := hc.primed_of_loop (u := u) (by rw [hpc]; rfl) (by rw [hpc]; rfl)
    obtain ⟨hsum, hle⟩ := hc.counter hprimed.1
    have hbound : ∑ u, (c.checker u).pc.lowered ≤ Check.nbtxperwrk * n := by
      rw [← hall]
      exact Finset.sum_le_sum fun v _ => hc.lowered_le v
    show 0 ≤ c.state.committed ℓ
    omega
  | decrease i last =>
    have hprimed := hc.primed_of_loop (u := u) (by rw [hpc]; rfl) (by rw [hpc]; rfl)
    obtain ⟨hsum, hle⟩ := hc.counter hprimed.1
    have hbound : ∑ u, (c.checker u).pc.lowered < Check.nbtxperwrk * n := by
      rw [← hall]
      refine sum_lt_of_member (t := u) ?_ fun v _ => hc.lowered_le v
      rw [hpc] at hsound ⊢
      exact hsound
    exact ⟨by omega, hc.fetched hpc⟩
  | finish =>
    rw [hpc] at hsound
    obtain rfl : u = 0 := Fin.ext hsound
    have hcounter := hc.counter (by rw [hpc]; rfl)
    have hquiet := hc.quiet (by rw [hpc]; rfl)
    have hsum : ∑ u, (c.checker u).pc.lowered = Check.nbtxperwrk * n := by
      rw [← hall]
      exact Finset.sum_congr rfl fun v _ => hc.lowered_of_finish (by rw [hpc]; rfl) v
    rw [hsum, hquiet] at hcounter
    show c.state.committed ℓ = 0
    omega
  | _ => trivial

end Checking

/-! ## A step of the library

A step of the library by worker `u` leaves the other workers where they are, and the counter
too unless it ends a transaction. At the end of a transaction the counter moves by what the
closure did alone. -/

section

variable {n : ℕ} {start : ℕ} {ℓ : Loc} {m₀ : Loc → ℤ} {dead : Set ℕ} {h : List (CheckReport n)}
  {c : Checkers n} {u v : Fin n} {s' : State (Fin n) ℤ} {e : Event (Fin n) ℤ} {w : Checker}

@[simp] theorem libraryEvents_library :
    libraryEvents (.library e :: h) = e :: libraryEvents h := rfl

@[simp] theorem libraryEvents_sync {b : BarrierEvent (Fin n)} :
    libraryEvents (.sync b :: h) = libraryEvents h := rfl

@[simp] theorem syncEvents_library : syncEvents (.library e :: h) = syncEvents h := rfl

@[simp] theorem syncEvents_sync {b : BarrierEvent (Fin n)} :
    syncEvents (.sync b :: h) = b :: syncEvents h := rfl

theorem setChecker_ne (hv : v ≠ u) : (c.setChecker u w).checker v = c.checker v :=
  Function.update_of_ne hv ..

theorem setChecker_self : (c.setChecker u w).checker u = w := Function.update_self ..

/-- The workers that do not move stand where they stood. -/
theorem Stands.of_other (hst : Stands start ℓ m₀ h c v)
    (hi : Isolated m₀ dead (libraryEvents h) c.state) (hs : Step c.state e s')
    (hm : MovesAlone c.state u e s') (he : e.avoids dead) (hd : ℓ.1 ∉ dead) (hv : v ≠ u) :
    Stands start ℓ m₀ (.library e :: h) { c.setChecker u w with state := s' } v := by
  have hw : (c.setChecker u w).checker v = c.checker v := setChecker_ne hv
  refine ⟨?_, ?_, ?_, ?_, ?_, ?_⟩ <;> simp only [hw, syncEvents_library, libraryEvents_library]
  · exact hst.sound
  · exact hst.rounds
  · exact hst.away
  · intro ht
    rcases hm.client v hv with hc | hc
    · rw [hc]
      exact hst.out ht
    · rw [hc, hst.out ht]
      rfl
  · intro hr
    exact (hst.opening hr).of_other hs hm hi.books hv
  · intro p hp
    obtain ⟨p₀, hclosure⟩ := hst.closure p hp
    obtain ⟨hin, hep⟩ := hclosure.of_other hs hm hi.books hv
    rcases committed_step hi hs he hd with ⟨-, heq⟩ | ⟨hep', -⟩
    · rw [heq]
      exact ⟨p₀, hin⟩
    · omega

/-- The worker that moves within a transaction. -/
theorem Stands.mover (hst : Stands start ℓ m₀ h c u)
    (ht : Check.transaction n start (c.checker u).pc ≠ none) (hpc : w.pc = (c.checker u).pc)
    (hopening : w.rest = none → Opening (e :: libraryEvents h) s' u)
    (hclosure : ∀ p, w.rest = some p → ∃ p₀, InClosure (counterAt start ℓ)
      (OnCourse (counterAt start ℓ) ((c.checker u).pc.Post n ℓ (s'.committed ℓ)) p₀) m₀
      (e :: libraryEvents h) s' u p) :
    Stands start ℓ m₀ (.library e :: h) { c.setChecker u w with state := s' } u := by
  refine ⟨?_, ?_, ?_, ?_, ?_, ?_⟩ <;>
    simp only [setChecker_self, syncEvents_library, libraryEvents_library, hpc]
  · exact hst.sound
  · exact hst.rounds
  · exact hst.away
  · exact fun hnone => absurd hnone ht
  · exact hopening
  · exact hclosure

end

namespace Checking

variable {n : ℕ} [NeZero n] {start : ℕ} {ℓ : Loc} {m₀ : Loc → ℤ} {dead : Set ℕ}
  {h : List (CheckReport n)} {c : Checkers n} {u v : Fin n} {s' : State (Fin n) ℤ}
  {e : Event (Fin n) ℤ} {w : Checker} {a : Action (Fin n) ℤ}

theorem alive (hc : Checking start ℓ m₀ dead h c) : ℓ.1 ∉ dead :=
  hc.placed.alive (a := start) (if_pos rfl)

/-- A step within a statement keeps the invariant. -/
theorem stay (hc : Checking start ℓ m₀ dead h c) (hs : c.state.step a = some (s', e))
    (ha : a.thread = u) (hmod : Modest dead e) (hn : ∀ T b, e ≠ .ended T b)
    (hpc : w.pc = (c.checker u).pc)
    (hst : Stands start ℓ m₀ (.library e :: h) { c.setChecker u w with state := s' } u) :
    Checking start ℓ m₀ dead (.library e :: h) { c.setChecker u w with state := s' } := by
  have hstep := step_cases hs
  have hm : MovesAlone c.state u e s' := ha ▸ step_movesAlone hs
  have hd := hc.alive
  have hpcs : ∀ v, ((c.setChecker u w).checker v).pc = (c.checker v).pc := by
    intro v
    obtain rfl | hv := eq_or_ne v u
    · rw [setChecker_self, hpc]
    · rw [setChecker_ne hv]
  have hstand := standing_of_not_ended hc.isolated hstep hm hmod.avoids hd hn
  have hcommitted := committed_step hc.isolated hstep hmod.avoids hd
  rw [hstand] at hcommitted
  refine ⟨hc.isolated.step hstep hmod.avoids, hc.recorded.step hstep hc.isolated.books,
    hc.placed.step hstep hmod.keeps, hc.barrier, hc.cardinal, ?_, ?_, ?_, ?_⟩
  · intro v
    obtain rfl | hv := eq_or_ne v u
    · exact hst
    · exact (hc.stands v).of_other hc.isolated hstep hm hmod.avoids hd hv
  · simp only [hpcs, libraryEvents_library, hstand]
    intro hprimed
    obtain ⟨hsum, hle⟩ := hc.counter hprimed
    refine ⟨hsum, ?_⟩
    rcases hcommitted with ⟨-, heq⟩ | ⟨-, heq⟩
    · rw [heq]
      exact hle
    · exact heq.ge
  · simp only [hpcs, libraryEvents_library, hstand]
    intro hfirst
    rcases hcommitted with ⟨-, heq⟩ | ⟨-, heq⟩
    · rw [heq]
      exact hc.quiet hfirst
    · exact heq.symm
  · simp only [hpcs]
    intro v i last hv
    have hle := hc.fetched hv
    rcases hcommitted with ⟨-, heq⟩ | ⟨-, heq⟩
    · rw [heq]
      exact hle
    · -- the epoch ends: the counter comes down to what it was to be
      have hprimed := hc.primed_of_loop (u := v) (by rw [hv]; rfl) (by rw [hv]; rfl)
      exact heq ▸ (hc.counter hprimed.1).2.trans hle

omit [NeZero n] in
/-- A worker is in a transaction of a statement: it is not at the barrier. -/
theorem atBarrier_of_transaction {pc : CheckPc} (ht : Check.transaction n start pc ≠ none) :
    pc.atBarrier = false := by
  cases pc with
  | meet | assemble | part | bail => exact absurd rfl ht
  | _ => rfl

/-- A transaction of another worker than worker 0, or one after `store`: the counter is there. -/
theorem primed_of_transaction (hc : Checking start ℓ m₀ dead h c)
    (ht : Check.transaction n start (c.checker u).pc ≠ none)
    (hp : (c.checker u).pc.isPrimed = true) : (c.checker 0).pc.isPrimed = true := by
  obtain rfl | hu := eq_or_ne u 0
  · exact hp
  · have hsound := (hc.stands u).sound
    have hne : (u : ℕ) ≠ 0 := fun h0 => hu (Fin.ext h0)
    cases hpc : (c.checker u).pc with
    | fetch | decrease => exact (hc.primed_of_loop (u := u) (by rw [hpc]; rfl) (by rw [hpc]; rfl)).1
    | store | verify | finish =>
      rw [hpc] at hsound
      exact absurd hsound hne
    | _ =>
      rw [hpc] at ht
      exact absurd rfl ht

/-- The end of a transaction, for the workers but what it does to the counter. -/
theorem leave {id : ℕ} {last : Bool} {next : CheckPc} (hc : Checking start ℓ m₀ dead h c)
    (ht : Check.transaction n start (c.checker u).pc ≠ none)
    (hs : c.state.step a = some (s', .ended (c.state.txn id) last)) (ha : a.thread = u)
    (hout : s'.client u = .outside) (hsound : next.Sound u)
    (hrounds : next.rounds = (c.checker u).pc.rounds) (v : Fin n) :
    Stands start ℓ m₀ (.library (.ended (c.state.txn id) last) :: h)
      { c.setChecker u ⟨next, none⟩ with state := s' } v := by
  have hstep := step_cases hs
  have hm : MovesAlone c.state u (.ended (c.state.txn id) last) s' := ha ▸ step_movesAlone hs
  obtain rfl | hv := eq_or_ne v u
  · refine ⟨?_, ?_, ?_, ?_, ?_, ?_⟩ <;> simp only [setChecker_self, syncEvents_library]
    · exact hsound
    · rw [(hc.stands v).rounds, hrounds]
    · exact fun _ => (hc.stands v).away (atBarrier_of_transaction ht)
    · exact fun _ => hout
    · refine fun _ => .waiting fun k => ?_
      rw [hout]
      simp
    · intro p hp
      cases hp
  · exact (hc.stands v).of_other hc.isolated hstep hm trivial hc.alive hv

/-- The counter has been stored: a transaction lowers it by one, and the worker is one turn
further, or it does neither. -/
theorem advance {id k : ℕ} {last : Bool} {next : CheckPc} (hc : Checking start ℓ m₀ dead h c)
    (ht : Check.transaction n start (c.checker u).pc ≠ none)
    (hs : c.state.step a = some (s', .ended (c.state.txn id) last)) (ha : a.thread = u)
    (hout : s'.client u = .outside) (hsound : next.Sound u)
    (hrounds : next.rounds = (c.checker u).pc.rounds)
    (hprimed : (c.checker u).pc.isPrimed = true) (hfirst : next.isFirst = false)
    (hlowered : next.lowered = (c.checker u).pc.lowered + k)
    (hstand : standing (.ended (c.state.txn id) last :: libraryEvents h) s' ℓ + k =
      standing (libraryEvents h) c.state ℓ)
    (hnext : ∀ i v, next = .decrease i v → s'.committed ℓ ≤ v) :
    Checking start ℓ m₀ dead (.library (.ended (c.state.txn id) last) :: h)
      { c.setChecker u ⟨next, none⟩ with state := s' } := by
  have hstep := step_cases hs
  have hprimed₀ := hc.primed_of_transaction ht hprimed
  obtain ⟨hsum, hle⟩ := hc.counter hprimed₀
  have hsum' := sum_add_of_member (t := u)
    (f := fun v => ((c.setChecker u ⟨next, none⟩).checker v).pc.lowered)
    (g := fun v => (c.checker v).pc.lowered) fun v hv => by rw [setChecker_ne hv]
  simp only [setChecker_self, hlowered] at hsum'
  have hcommitted := committed_step hc.isolated hstep trivial hc.alive
  refine ⟨hc.isolated.step hstep trivial, hc.recorded.step hstep hc.isolated.books,
    hc.placed.step hstep fun _ => trivial, hc.barrier, hc.cardinal,
    hc.leave ht hs ha hout hsound hrounds, fun _ => ⟨?_, ?_⟩, fun hf => ?_,
    fun {v i w} hv => ?_⟩
  · simp only [libraryEvents_library]
    omega
  · simp only [libraryEvents_library]
    rcases hcommitted with ⟨-, heq⟩ | ⟨-, heq⟩
    · omega
    · exact heq.ge
  · -- the others are in no transaction while worker 0 is alone
    obtain rfl | hu := eq_or_ne u 0
    · rw [setChecker_self] at hf
      rw [hfirst] at hf
      cases hf
    · rw [setChecker_ne hu.symm] at hf
      exact absurd (hc.transaction_of_first hf hu) ht
  · obtain rfl | hvu := eq_or_ne v u
    · rw [setChecker_self] at hv
      exact hnext i w hv
    · rw [setChecker_ne hvu] at hv
      have hfetched := hc.fetched hv
      rcases hcommitted with ⟨-, heq⟩ | ⟨-, heq⟩
      · rw [heq]
        exact hfetched
      · refine le_trans ?_ hfetched
        rw [heq]
        omega

/-- Worker 0 has stored the counter, and its transaction has left. -/
theorem stored {id : ℕ} {last : Bool} (hc : Checking start ℓ m₀ dead h c)
    (hn : Check.nbtxperwrk * n < 2 ^ 64) (hpc : (c.checker u).pc = .store)
    (hs : c.state.step a = some (s', .ended (c.state.txn id) last)) (ha : a.thread = u)
    (hout : s'.client u = .outside)
    (hstand : standing (.ended (c.state.txn id) last :: libraryEvents h) s' ℓ =
      Check.initCounter n) :
    Checking start ℓ m₀ dead (.library (.ended (c.state.txn id) last) :: h)
      { c.setChecker u ⟨.verify, none⟩ with state := s' } := by
  have hstep := step_cases hs
  have hsound := (hc.stands u).sound
  rw [hpc] at hsound
  obtain rfl : u = 0 := Fin.ext hsound
  have ht : Check.transaction n start (c.checker 0).pc ≠ none := by
    rw [hpc]
    simp [Check.transaction]
  have hi' := hc.isolated.step hstep trivial
  have hrounds : CheckPc.verify.rounds = (c.checker 0).pc.rounds := by
    rw [hpc]
    rfl
  have hsound' : CheckPc.verify.Sound ((0 : Fin n) : ℕ) := rfl
  have hstands := hc.leave ht hs ha hout hsound' hrounds
  -- nobody else is in the library
  have hallOut : ∀ v, s'.client v = .outside := by
    intro v
    obtain rfl | hv := eq_or_ne v 0
    · exact hout
    · apply (hstands v).out
      simp only [setChecker_ne hv]
      exact hc.transaction_of_first (by rw [hpc]; rfl) hv
  have hquiet := standing_of_outside (ℓ := ℓ) hi' hallOut
  -- and nobody has lowered the counter
  have hnone : ∀ v, ((c.setChecker 0 ⟨.verify, none⟩).checker v).pc.lowered = 0 := by
    intro v
    obtain rfl | hv := eq_or_ne v 0
    · rw [setChecker_self]
      rfl
    · rw [setChecker_ne hv]
      exact hc.lowered_of_verify (by rw [hpc]; rfl) (by rw [hpc]; rfl) v
  refine ⟨hi', hc.recorded.step hstep hc.isolated.books,
    hc.placed.step hstep fun _ => trivial, hc.barrier, hc.cardinal, hstands,
    fun _ => ⟨?_, hquiet.le⟩, fun _ => hquiet, fun {v i w} hv => ?_⟩
  · simp only [libraryEvents_library, hnone, hstand, Finset.sum_const_zero, Nat.cast_zero, add_zero]
    rw [Check.initCounter, Nat.mod_eq_of_lt hn]
  · obtain rfl | hv0 := eq_or_ne v 0
    · rw [setChecker_self] at hv
      cases hv
    · rw [setChecker_ne hv0] at hv
      have hnot := hc.transaction_of_first (by rw [hpc]; rfl) hv0
      rw [hv] at hnot
      cases hnot

theorem rounds_loopHead (i : ℕ) : (Check.loopHead i).rounds = 2 := by
  rw [Check.loopHead]
  split <;> rfl

theorem isFirst_loopHead (i : ℕ) : (Check.loopHead i).isFirst = false := by
  rw [Check.loopHead]
  split <;> rfl

theorem lowered_loopHead {i : ℕ} (hi : i ≤ Check.nbtxperwrk) : (Check.loopHead i).lowered = i := by
  rw [Check.loopHead]
  split
  · rfl
  · exact le_antisymm (not_lt.mp ‹_›) hi

theorem sound_loopHead (i uid : ℕ) : (Check.loopHead i).Sound uid := by
  rw [Check.loopHead]
  split
  · assumption
  · trivial

/-- A transaction that leaves the counter as it found it does not change what stands. -/
theorem standing_kept {id : ℕ} {last : Bool} (hc : Checking start ℓ m₀ dead h c)
    (hs : c.state.step a = some (s', .ended (c.state.txn id) last)) (ha : a.thread = u)
    (hin : InCall c.state u id .rest)
    (hview : view m₀ (libraryEvents h) (c.state.txn id) ℓ = c.state.committed ℓ) :
    standing (.ended (c.state.txn id) last :: libraryEvents h) s' ℓ =
      standing (libraryEvents h) c.state ℓ := by
  have hm : MovesAlone c.state u (.ended (c.state.txn id) last) s' := ha ▸ step_movesAlone hs
  rcases standing_done hc.isolated (step_cases hs) hm hin hc.alive with
    ⟨hstand, -⟩ | ⟨hstand, hsame⟩
  · exact hstand
  · rw [hstand, hview, hsame]

/-- **The end of a look at the counter.** The worker goes on, with as many turns behind it as
before. -/
theorem looked {id : ℕ} {last : Bool} {next : CheckPc} (hc : Checking start ℓ m₀ dead h c)
    (hs : c.state.step a = some (s', .ended (c.state.txn id) last)) (ha : a.thread = u)
    (hin : InCall c.state u id .rest) (hout : s'.client u = .outside)
    (ht : Check.transaction n start (c.checker u).pc ≠ none)
    (hprimed : (c.checker u).pc.isPrimed = true)
    (hview : view m₀ (libraryEvents h) (c.state.txn id) ℓ = c.state.committed ℓ)
    (hsound : next.Sound u) (hrounds : next.rounds = (c.checker u).pc.rounds)
    (hfirst : next.isFirst = false) (hlowered : next.lowered = (c.checker u).pc.lowered)
    (hnext : ∀ i v, next = .decrease i v → s'.committed ℓ ≤ v) :
    Checking start ℓ m₀ dead (.library (.ended (c.state.txn id) last) :: h)
      { c.setChecker u ⟨next, none⟩ with state := s' } := by
  refine hc.advance (k := 0) ht hs ha hout hsound hrounds hprimed hfirst hlowered ?_ hnext
  rw [hc.standing_kept hs ha hin hview]
  exact add_zero _

/-- **The end of the `store`.** What stands is the initial value: either this transaction has
written it, or it was there. -/
theorem done_store {id : ℕ} {last : Bool} {next : CheckPc} (hc : Checking start ℓ m₀ dead h c)
    (hn : Check.nbtxperwrk * n < 2 ^ 64)
    (hs : c.state.step a = some (s', .ended (c.state.txn id) last)) (ha : a.thread = u)
    (hin : InCall c.state u id .rest) (hout : s'.client u = .outside)
    (hpc : (c.checker u).pc = .store)
    (hpost : CheckPc.store.Post n ℓ (c.state.committed ℓ) next
      (view m₀ (libraryEvents h) (c.state.txn id))) :
    Checking start ℓ m₀ dead (.library (.ended (c.state.txn id) last) :: h)
      { c.setChecker u ⟨next, none⟩ with state := s' } := by
  have hm : MovesAlone c.state u (.ended (c.state.txn id) last) s' := ha ▸ step_movesAlone hs
  have hsound := (hc.stands u).sound
  rw [hpc] at hsound
  obtain ⟨rfl, hview⟩ := hpost
  apply hc.stored hn hpc hs ha hout
  rw [← hview]
  rcases standing_done hc.isolated (step_cases hs) hm hin hc.alive with
    ⟨hstand, hsame⟩ | ⟨hstand, -⟩
  · obtain rfl : u = 0 := Fin.ext hsound
    rw [hstand, hc.quiet (by rw [hpc]; rfl), hsame]
  · exact hstand

/-- **The end of a `fetch`.** What is committed from then on is at most what was fetched. -/
theorem done_fetch {id i : ℕ} {last : Bool} {next : CheckPc}
    (hc : Checking start ℓ m₀ dead h c) (hn : Check.nbtxperwrk * n < 2 ^ 64)
    (hs : c.state.step a = some (s', .ended (c.state.txn id) last)) (ha : a.thread = u)
    (hin : InCall c.state u id .rest) (hout : s'.client u = .outside)
    (hpc : (c.checker u).pc = .fetch i)
    (hpost : (CheckPc.fetch i).Post n ℓ (c.state.committed ℓ) next
      (view m₀ (libraryEvents h) (c.state.txn id))) :
    Checking start ℓ m₀ dead (.library (.ended (c.state.txn id) last) :: h)
      { c.setChecker u ⟨next, none⟩ with state := s' } := by
  have hsound := (hc.stands u).sound
  have hpos : 0 ≤ c.state.committed ℓ := by
    have hfinds := hc.finds hn u
    rw [hpc] at hfinds
    exact hfinds
  have hprimed := hc.primed_of_loop (u := u) (by rw [hpc]; rfl) (by rw [hpc]; rfl)
  rw [hpc] at hsound
  obtain ⟨rfl, hview⟩ := hpost
  refine hc.looked hs ha hin hout (by simp [hpc, Check.transaction]) (by rw [hpc]; rfl) hview
    hsound (by rw [hpc]; rfl) rfl (by rw [hpc]; rfl) ?_
  rintro j v ⟨⟩
  have hle := (hc.counter hprimed.1).2
  rw [Int.toNat_of_nonneg hpos]
  rcases committed_step hc.isolated (step_cases hs) trivial hc.alive with ⟨-, heq⟩ | ⟨-, heq⟩
  · exact heq.le
  · rw [heq, hc.standing_kept hs ha hin hview]
    exact hle

/-- **The end of a `decrease`.** It has written the counter, so it is the only one of its
epoch to do so, and what stands is lower by one. -/
theorem done_decrease {id i fetched : ℕ} {last : Bool} {next : CheckPc}
    (hc : Checking start ℓ m₀ dead h c)
    (hs : c.state.step a = some (s', .ended (c.state.txn id) last)) (ha : a.thread = u)
    (hin : InCall c.state u id .rest) (hout : s'.client u = .outside)
    (hpc : (c.checker u).pc = .decrease i fetched)
    (hpost : (CheckPc.decrease i fetched).Post n ℓ (c.state.committed ℓ) next
      (view m₀ (libraryEvents h) (c.state.txn id))) :
    Checking start ℓ m₀ dead (.library (.ended (c.state.txn id) last) :: h)
      { c.setChecker u ⟨next, none⟩ with state := s' } := by
  have hm : MovesAlone c.state u (.ended (c.state.txn id) last) s' := ha ▸ step_movesAlone hs
  have hsound := (hc.stands u).sound
  rw [hpc] at hsound
  obtain ⟨rfl, hview⟩ := hpost
  refine hc.advance (k := 1) (by simp [hpc, Check.transaction]) hs ha hout (sound_loopHead ..) ?_
    (by rw [hpc]; rfl) (isFirst_loopHead _) ?_ ?_ ?_
  · rw [hpc]
    exact rounds_loopHead _
  · rw [hpc]
    exact lowered_loopHead hsound
  · rcases standing_done hc.isolated (step_cases hs) hm hin hc.alive with
      ⟨-, hsame⟩ | ⟨hstand, hsame⟩
    · omega
    · rw [hstand, hview, hsame]
      exact sub_add_cancel _ 1
  · intro j v heq
    rw [Check.loopHead] at heq
    split at heq <;> cases heq

/-- **The end of a transaction**, whichever it is. -/
theorem done {id : ℕ} {last : Bool} {next : CheckPc} (hc : Checking start ℓ m₀ dead h c)
    (hn : Check.nbtxperwrk * n < 2 ^ 64)
    (hs : c.state.step a = some (s', .ended (c.state.txn id) last)) (ha : a.thread = u)
    (hin : InCall c.state u id .rest) (hout : s'.client u = .outside)
    (hpost : (c.checker u).pc.Post n ℓ (c.state.committed ℓ) next
      (view m₀ (libraryEvents h) (c.state.txn id))) :
    Checking start ℓ m₀ dead (.library (.ended (c.state.txn id) last) :: h)
      { c.setChecker u ⟨next, none⟩ with state := s' } := by
  cases hpc : (c.checker u).pc with
  | store =>
    rw [hpc] at hpost
    exact hc.done_store hn hs ha hin hout hpc hpost
  | verify =>
    rw [hpc] at hpost
    obtain ⟨rfl, hview⟩ := hpost
    refine hc.looked hs ha hin hout (by simp [hpc, Check.transaction]) (by rw [hpc]; rfl) hview
      trivial (by rw [hpc]; rfl) rfl (by rw [hpc]; rfl) ?_
    rintro i v ⟨⟩
  | fetch i =>
    rw [hpc] at hpost
    exact hc.done_fetch hn hs ha hin hout hpc hpost
  | decrease i fetched =>
    rw [hpc] at hpost
    exact hc.done_decrease hs ha hin hout hpc hpost
  | finish =>
    rw [hpc] at hpost
    obtain ⟨rfl, hview⟩ := hpost
    refine hc.looked hs ha hin hout (by simp [hpc, Check.transaction]) (by rw [hpc]; rfl) hview
      rfl (by rw [hpc]; rfl) rfl (by rw [hpc]; rfl) ?_
    rintro i v ⟨⟩
  | _ =>
    rw [hpc] at hpost
    exact hpost.elim

end Checking

/-! ## A step at the barrier

A step at the barrier is silent or lets one worker through. Who is let through has been met by
all others, so nobody is in the statement before it any more. -/

/-- A step at the barrier moves one thread, and it may be let through. -/
theorem Barrier.sync_cases {τ : Type} [DecidableEq τ] (b : Barrier τ) (t : τ) :
    ((b.sync t).2 = .returned t ∧ (b.sync t).1.pc t = .outside ∨
      ∀ u, (b.sync t).2 ≠ .returned u) ∧ ∀ u, u ≠ t → (b.sync t).1.pc u = b.pc u := by
  have hmove : ∀ (b' : Barrier τ) (p : SyncPc), b'.pc = b.pc → ∀ u, u ≠ t →
      (b'.moveTo t p).pc u = b.pc u := by
    intro b' p hb u hu
    rw [Barrier.moveTo_pc_ne _ _ _ hu, hb]
  rw [Barrier.sync]
  cases b.pc t with
  | storeEnter => exact ⟨.inl ⟨rfl, Barrier.moveTo_pc_self ..⟩, hmove _ _ rfl⟩
  | waitEnter =>
    dsimp only
    split
    · exact ⟨.inr fun u => by simp, fun _ _ => rfl⟩
    · exact ⟨.inl ⟨rfl, Barrier.moveTo_pc_self ..⟩, hmove _ _ rfl⟩
  | waitLeave =>
    dsimp only
    split
    · exact ⟨.inr fun u => by simp, fun _ _ => rfl⟩
    · exact ⟨.inr fun u => by simp, hmove _ _ rfl⟩
  | _ => exact ⟨.inr fun u => by simp, hmove _ _ rfl⟩

namespace Checking

variable {n : ℕ} [NeZero n] {start : ℕ} {ℓ : Loc} {m₀ : Loc → ℤ} {dead : Set ℕ}
  {h : List (CheckReport n)} {c : Checkers n} {u v : Fin n} {next : CheckPc}

/-- A step at the barrier keeps what is known of the barrier. -/
theorem sync (hc : Checking start ℓ m₀ dead h c) (u : Fin n) :
    BarrierInv ((c.barrier.sync u).2 :: syncEvents h) (c.barrier.sync u).1 ∧
      (c.barrier.sync u).1.cardinal.toNat = n := by
  refine ⟨hc.barrier.sync ?_ ?_ u, ?_⟩
  · rw [Fintype.card_fin, hc.cardinal]
  · intro h0
    have hcard := hc.cardinal
    rw [h0] at hcard
    exact NeZero.ne n hcard.symm
  · rw [Barrier.sync_cardinal]
    exact hc.cardinal

/-- A worker at the barrier is not let through. -/
theorem waits (hc : Checking start ℓ m₀ dead h c) (hb : (c.checker u).pc.atBarrier = true)
    (hwait : ∀ t, (c.barrier.sync u).2 ≠ .returned t) :
    Checking start ℓ m₀ dead (.sync (c.barrier.sync u).2 :: h)
      { c with barrier := (c.barrier.sync u).1 } := by
  have hreturns : ∀ v, returns v ((c.barrier.sync u).2 :: syncEvents h) =
      returns v (syncEvents h) := fun v => List.count_cons_of_ne (hwait v)
  refine ⟨hc.isolated, hc.recorded, hc.placed, (hc.sync u).1, (hc.sync u).2, ?_, hc.counter,
    hc.quiet, hc.fetched⟩
  intro v
  obtain ⟨hsound, hrounds, haway, hout, hopening, hclosure⟩ := hc.stands v
  refine ⟨hsound, ?_, ?_, hout, hopening, hclosure⟩
  · rw [syncEvents_sync, hreturns]
    exact hrounds
  · intro hv
    have hvu : v ≠ u := by
      rintro rfl
      rw [show (c.checker v).pc.atBarrier = false from hv] at hb
      cases hb
    rw [(c.barrier.sync_cases u).2 v hvu]
    exact haway hv

omit [NeZero n] in
/-- A statement at the barrier, and the next one. -/
theorem afterSync_spec (n start : ℕ) {uid : ℕ} {pc next : CheckPc}
    (hnext : Check.afterSync uid pc = some next) (hsound : pc.Sound uid) :
    pc.atBarrier = true ∧ Check.transaction n start pc = none ∧ next.Sound uid ∧
      next.rounds = pc.rounds + 1 ∧ next.lowered = pc.lowered ∧
      (uid = 0 → next.isPrimed = true → pc.isPrimed = true) ∧
      (next.isFirst = true → uid = 0 ∧ (pc.rounds = 0 ∨ pc.rounds = 2)) ∧
      ∀ i last, next ≠ .decrease i last := by
  cases pc with
  | meet =>
    obtain rfl := Option.some.inj hnext
    by_cases h0 : uid = 0
    · rw [if_pos h0]
      exact ⟨rfl, rfl, h0, rfl, rfl, by simp [CheckPc.isPrimed], fun _ => ⟨h0, .inl rfl⟩, by simp⟩
    · rw [if_neg h0]
      exact ⟨rfl, rfl, trivial, rfl, rfl, fun h => absurd h h0, by simp [CheckPc.isFirst], by simp⟩
  | assemble =>
    obtain rfl := Option.some.inj hnext
    exact ⟨rfl, rfl, sound_loopHead .., rounds_loopHead 0, lowered_loopHead (Nat.zero_le _),
      fun _ _ => rfl, by simp [Check.loopHead, Check.nbtxperwrk, CheckPc.isFirst],
      by simp [Check.loopHead, Check.nbtxperwrk]⟩
  | part =>
    obtain rfl := Option.some.inj hnext
    by_cases h0 : uid = 0
    · rw [if_pos h0]
      exact ⟨rfl, rfl, h0, rfl, rfl, fun _ _ => rfl, fun _ => ⟨h0, .inr rfl⟩, by simp⟩
    · rw [if_neg h0]
      exact ⟨rfl, rfl, rfl, rfl, rfl, fun _ _ => rfl, by simp [CheckPc.isFirst], by simp⟩
  | bail => exact hsound.elim
  | _ => cases hnext

/-- When worker 0 is let through to a transaction of its own, the others are in none. -/
theorem outside_of_returned (hc : Checking start ℓ m₀ dead h c)
    (hret : (c.barrier.sync 0).2 = .returned 0)
    (hr : (c.checker 0).pc.rounds = 0 ∨ (c.checker 0).pc.rounds = 2)
    (hb : (c.checker 0).pc.atBarrier = true)
    (ht : Check.transaction n start (c.checker 0).pc = none) (v : Fin n) :
    c.state.client v = .outside := by
  apply (hc.stands v).out
  obtain rfl | hv := eq_or_ne v 0
  · exact ht
  · -- the others are at the barrier, or have been let through as well
    have hsound := (hc.stands v).sound
    have hne : (v : ℕ) ≠ 0 := fun h0 => hv (Fin.ext h0)
    have hle := hc.rounds_le v 0
    have hlt := hc.barrier.returns_lt_starts hret v
    have hcalls := hc.barrier.calls v
    rw [hb, Bool.toNat_true] at hle
    rw [(hc.stands 0).rounds] at hlt
    rw [(hc.stands v).rounds] at hcalls
    cases hpc : (c.checker v).pc with
    | store | verify | finish =>
      rw [hpc] at hsound
      exact absurd hsound hne
    | fetch | decrease =>
      rw [hpc] at hle hcalls
      have haway := (hc.stands v).away (by rw [hpc]; rfl)
      rw [if_pos haway] at hcalls
      have hle : 2 ≤ (c.checker 0).pc.rounds + 1 := hle
      have hcalls : starts v (syncEvents h) = 2 := hcalls
      omega
    | _ => rfl

/-- A worker that is let through keeps the invariant, at its next statement. -/
theorem passes (hc : Checking start ℓ m₀ dead h c)
    (hnext : Check.afterSync u (c.checker u).pc = some next)
    (hret : (c.barrier.sync u).2 = .returned u) (hoff : (c.barrier.sync u).1.pc u = .outside) :
    Checking start ℓ m₀ dead (.sync (c.barrier.sync u).2 :: h)
      ({ c with barrier := (c.barrier.sync u).1 }.setChecker u ⟨next, none⟩) := by
  obtain ⟨hb, ht, hsound, hrounds, hlowered, hprimed, hfirst, hdecrease⟩ :=
    afterSync_spec n start hnext (hc.stands u).sound
  have hreturns : ∀ v, returns v ((c.barrier.sync u).2 :: syncEvents h) =
      returns v (syncEvents h) + if u = v then 1 else 0 := by
    intro v
    rw [hret, returns_returned]
  have hlowered' : ∀ v, ((c.setChecker u ⟨next, none⟩).checker v).pc.lowered =
      (c.checker v).pc.lowered := by
    intro v
    obtain rfl | hv := eq_or_ne v u
    · rw [setChecker_self, hlowered]
    · rw [setChecker_ne hv]
  have hprimed' : ((c.setChecker u ⟨next, none⟩).checker 0).pc.isPrimed = true →
      (c.checker 0).pc.isPrimed = true := by
    intro hp
    obtain rfl | hu := eq_or_ne u 0
    · rw [setChecker_self] at hp
      exact hprimed rfl hp
    · rwa [setChecker_ne hu.symm] at hp
  refine ⟨hc.isolated, hc.recorded, hc.placed, (hc.sync u).1, (hc.sync u).2, ?_, ?_, ?_, ?_⟩
  · intro v
    obtain rfl | hv := eq_or_ne v u
    · refine ⟨?_, ?_, fun _ => hoff, fun _ => (hc.stands v).out ht, fun _ => .waiting fun k => ?_,
        fun p hp => ?_⟩
      · rw [setChecker_self]
        exact hsound
      · rw [setChecker_self, syncEvents_sync, hreturns, if_pos rfl, (hc.stands v).rounds]
        exact hrounds.symm
      · show c.state.client v ≠ _
        rw [(hc.stands v).out ht]
        simp
      · rw [setChecker_self] at hp
        cases hp
    · obtain ⟨hsound, hrounds, haway, hout, hopening, hclosure⟩ := hc.stands v
      refine ⟨?_, ?_, ?_, ?_, ?_, ?_⟩ <;> rw [setChecker_ne hv]
      · exact hsound
      · rw [syncEvents_sync, hreturns, if_neg hv.symm]
        exact hrounds
      · exact fun hb => ((c.barrier.sync_cases u).2 v hv).trans (haway hb)
      · exact hout
      · exact hopening
      · exact hclosure
  · intro hp
    have hsum : ∑ v, ((c.setChecker u ⟨next, none⟩).checker v).pc.lowered =
        ∑ v, (c.checker v).pc.lowered := Finset.sum_congr rfl fun v _ => hlowered' v
    have hcounter := hc.counter (hprimed' hp)
    rw [← hsum] at hcounter
    exact hcounter
  · intro hf
    obtain rfl | hu := eq_or_ne u 0
    · rw [setChecker_self] at hf
      exact standing_of_outside hc.isolated (hc.outside_of_returned hret (hfirst hf).2 hb ht)
    · rw [setChecker_ne hu.symm] at hf
      exact hc.quiet hf
  · intro v i last hv
    obtain rfl | hvu := eq_or_ne v u
    · rw [setChecker_self] at hv
      exact absurd hv (hdecrease i last)
    · rw [setChecker_ne hvu] at hv
      exact hc.fetched hv

omit [NeZero n] in
theorem meet_eq : c.meet u next =
    (if (c.barrier.sync u).2 = .returned u then
      { c with barrier := (c.barrier.sync u).1 }.setChecker u ⟨next, none⟩
    else { c with barrier := (c.barrier.sync u).1 }, .sync (c.barrier.sync u).2) := rfl

omit [NeZero n] in
theorem library_cases {c' : Checkers n} {r : CheckReport n} {closure : Closure CheckPc}
    {a : Action (Fin n) ℤ} (hs : c.library u closure a = some (c', r)) :
    ∃ s' e, c.state.step a = some (s', e) ∧ r = .library e ∧
      c' = { c.setChecker u (Checkers.after (c.checker u) closure e) with state := s' } := by
  obtain ⟨⟨s', e⟩, hstep, heq⟩ := Option.map_eq_some_iff.mp hs
  obtain ⟨rfl, rfl⟩ := Prod.mk.inj heq
  exact ⟨s', e, hstep, rfl, rfl⟩

/-- A step of `tm_begin` keeps the invariant. -/
theorem opened {c' : Checkers n} {r : CheckReport n} {closure : Closure CheckPc} {isRo : Bool}
    (hc : Checking start ℓ m₀ dead h c) (hn : Check.nbtxperwrk * n < 2 ^ 64)
    (ht : Check.transaction n start (c.checker u).pc = some (isRo, closure))
    (hrest : (c.checker u).rest = none)
    (hs : c.library u closure (openAction c.state u isRo) = some (c', r)) :
    Checking start ℓ m₀ dead (r :: h) c' := by
  obtain ⟨s', e, hstep, rfl, rfl⟩ := library_cases hs
  have ha : (openAction c.state u isRo).thread = u := openAction_thread
  obtain ⟨hmod, hl, hcases⟩ := ((hc.stands u).opening hrest).step hc.isolated hc.recorded hstep
  have hne : Check.transaction n start (c.checker u).pc ≠ none := by
    rw [ht]
    simp
  have hended : ∀ T b, e ≠ .ended T b := by
    rintro T b rfl
    cases hl
  rcases hcases with ⟨hsilent, hop⟩ | ⟨rfl, id, hin, hep, hnone, hview⟩
  · have hafter : Checkers.after (c.checker u) closure e = c.checker u := by
      rw [Checkers.after, hrest]
      exact if_neg hsilent
    rw [hafter]
    refine hc.stay hstep ha hmod hended rfl ((hc.stands u).mover hne rfl (fun _ => hop) ?_)
    intro p hp
    rw [hrest] at hp
    cases hp
  · have hafter : Checkers.after (c.checker u) closure (.silent : Event (Fin n) ℤ) =
        ⟨(c.checker u).pc, some closure⟩ := by
      rw [Checkers.after, hrest]
      exact if_pos rfl
    rw [hafter]
    refine hc.stay hstep ha hmod hended rfl
      ((hc.stands u).mover hne rfl (fun hnone => by cases hnone) ?_)
    -- the closure starts on what is committed
    intro p hp
    obtain rfl := Option.some.inj hp
    have hcommitted : s'.committed ℓ = c.state.committed ℓ := by
      rcases committed_step hc.isolated (step_cases hstep) hmod.avoids hc.alive with
        ⟨-, heq⟩ | ⟨hep', -⟩
      · exact heq
      · omega
    rw [hcommitted]
    refine ⟨closure, id, .rest, hin, .rest ⟨?_, ?_⟩⟩
    · rw [hnone]
      exact .start
    · exact comes_transaction ht (hc.finds hn u) (hview ℓ hc.alive)

/-- A step of the closure keeps the invariant, be it within the statement or at its end. -/
theorem called {c' : Checkers n} {r : CheckReport n} {closure p : Closure CheckPc}
    {a : Action (Fin n) ℤ} (hc : Checking start ℓ m₀ dead h c)
    (hn : Check.nbtxperwrk * n < 2 ^ 64)
    (hne : Check.transaction n start (c.checker u).pc ≠ none)
    (hrest : (c.checker u).rest = some p) (ha : callAction c.state u p = some a)
    (hs : c.library u closure a = some (c', r)) : Checking start ℓ m₀ dead (r :: h) c' := by
  obtain ⟨s', e, hstep, rfl, rfl⟩ := library_cases hs
  obtain ⟨p₀, hclosure⟩ := (hc.stands u).closure p hrest
  obtain ⟨hmod, hturned⟩ := hclosure.step OnCourse.sustained hc.isolated hc.placed ha hstep
  have ha : a.thread = u := callAction_thread ha
  have hafter : Checkers.after (c.checker u) closure e =
      Checkers.resume (c.checker u) (goOn p e) := by
    rw [Checkers.after, hrest]
  rw [hafter]
  generalize goOn p e = o at hturned
  cases hturned with
  | @goes p' hin hep hl =>
    have hended : ∀ T b, e ≠ .ended T b := by
      rintro T b rfl
      cases hl
    refine hc.stay hstep ha hmod hended rfl
      ((hc.stands u).mover hne rfl (fun hnone => by cases hnone) ?_)
    intro q hq
    obtain rfl := Option.some.inj hq
    rcases committed_step hc.isolated (step_cases hstep) hmod.avoids hc.alive with
      ⟨-, heq⟩ | ⟨hep', -⟩
    · rw [heq]
      exact ⟨p₀, hin⟩
    · omega
  | again he hout =>
    have hended : ∀ T b, e ≠ .ended T b := by
      rintro T b rfl
      cases he
    refine hc.stay hstep ha hmod hended rfl ((hc.stands u).mover hne rfl
      (fun _ => .waiting fun k => ?_) fun q hq => by cases hq)
    rw [hout]
    simp
  | done hin he hout hend =>
    subst he
    exact hc.done hn hstep ha hin hout hend.comes.2

/-- **A step of `check`** keeps the invariant, in the library and at the barrier. -/
theorem step {c' : Checkers n} {r : CheckReport n} (hc : Checking start ℓ m₀ dead h c)
    (hn : Check.nbtxperwrk * n < 2 ^ 64) (hs : c.step start u = some (c', r)) :
    Checking start ℓ m₀ dead (r :: h) c' := by
  rw [Checkers.step] at hs
  cases hnext : Check.afterSync u (c.checker u).pc with
  | some next =>
    rw [hnext] at hs
    have heq := Option.some.inj hs
    rcases (c.barrier.sync_cases u).1 with ⟨hret, hoff⟩ | hwait
    · rw [meet_eq, if_pos hret] at heq
      obtain ⟨rfl, rfl⟩ := Prod.mk.inj heq
      exact hc.passes hnext hret hoff
    · rw [meet_eq, if_neg (hwait u)] at heq
      obtain ⟨rfl, rfl⟩ := Prod.mk.inj heq
      exact hc.waits (afterSync_spec n start hnext (hc.stands u).sound).1 hwait
  | none =>
    cases ht : Check.transaction n start (c.checker u).pc with
    | none =>
      rw [hnext, ht] at hs
      cases hs
    | some tx =>
      rw [hnext, ht] at hs
      dsimp only at hs
      cases hrest : (c.checker u).rest with
      | none =>
        rw [hrest] at hs
        exact hc.opened hn ht hrest hs
      | some p =>
        rw [hrest] at hs
        obtain ⟨a, ha, hs⟩ := Option.bind_eq_some_iff.mp hs
        exact hc.called hn (by rw [ht]; simp) hrest ha hs

end Checking

/-! ## The verdict

A worker that returns an error has found the counter at another value than its statement
expects, which the invariant excludes. -/

/-- Before `check`: nobody is in a transaction, the barrier is new, and the word at the start
of the region is in use. -/
structure Checkers.Ready {n : ℕ} (start : ℕ) (ℓ : Loc) (dead : Set ℕ) (c : Checkers n) : Prop where
  /-- the library is at rest -/
  atRest : c.state.AtRest
  /-- no word is written -/
  settled : c.state.region.Settled dead
  /-- the word at the start -/
  placed : Placed (counterAt start ℓ) dead c.state
  /-- the barrier is as it was created -/
  barrier : c.barrier = Barrier.create (UInt64.ofNat n)
  /-- the workers are about to call it -/
  checker : ∀ u, c.checker u = ⟨.meet, none⟩

theorem Checkers.Ready.checking {n : ℕ} [NeZero n] {start : ℕ} {ℓ : Loc} {dead : Set ℕ}
    {c : Checkers n} (hc : c.Ready start ℓ dead) (hn : Check.nbtxperwrk * n < 2 ^ 64) :
    Checking start ℓ c.state.committed dead [] c := by
  have hcard : (UInt64.ofNat n).toNat = n := by
    have hlt : n < 2 ^ 64 := by
      rw [Check.nbtxperwrk] at hn
      omega
    rw [UInt64.toNat_ofNat', Nat.mod_eq_of_lt hlt]
  have hpos : UInt64.ofNat n ≠ 0 := by
    intro h0
    rw [h0] at hcard
    exact NeZero.ne n hcard.symm
  have hout : ∀ u, c.state.client u = .outside := hc.atRest.1.2
  refine ⟨.of_settled hc.atRest hc.settled, fun _ _ => rfl, hc.placed, ?_, ?_, fun u => ?_,
    fun hp => ?_, fun hf => ?_, fun {u i last} hu => ?_⟩
  · rw [hc.barrier]
    exact .create _ hpos
  · rw [hc.barrier]
    exact hcard
  · refine ⟨?_, ?_, fun _ => ?_, fun _ => hout u, fun _ => .waiting fun k => ?_, fun p hp => ?_⟩
    · rw [hc.checker u]
      trivial
    · rw [hc.checker u]
      rfl
    · rw [hc.barrier]
      rfl
    · rw [hout u]
      simp
    · rw [hc.checker u] at hp
      cases hp
  · rw [hc.checker 0] at hp
    cases hp
  · rw [hc.checker 0] at hf
    cases hf
  · rw [hc.checker u] at hu
    cases hu

/-- **The grader does not accuse this library.** In every run of `check` by all workers, over
any interleaving and any aborts: nobody returns an error or is on its way out with one, and
when all have returned the counter is zero. -/
theorem check_never_accuses {n : ℕ} [NeZero n] {start : ℕ} {ℓ : Loc} {dead : Set ℕ}
    {c₀ c : Checkers n} {h : List (CheckReport n)} (hn : Check.nbtxperwrk * n < 2 ^ 64)
    (hready : c₀.Ready start ℓ dead) (hr : Run (Checkers.step start) anyStep c₀ h c) :
    (∀ u error, (c.checker u).pc ≠ .returned (some error)) ∧
      (∀ u more error, (c.checker u).pc ≠ .bail more error) ∧
      ((∀ u, (c.checker u).pc = .returned none) → c.state.committed ℓ = 0) := by
  have hc : Checking start ℓ c₀.state.committed dead h c := by
    induction hr with
    | start => exact hready.checking hn
    | next _ hs _ ih => exact ih.step hn hs
  refine ⟨?_, ?_, ?_⟩
  · intro u error hu
    have hsound := (hc.stands u).sound
    rw [hu] at hsound
    cases hsound
  · intro u more error hu
    have hsound := (hc.stands u).sound
    rw [hu] at hsound
    exact hsound
  · intro hall
    have hout : ∀ u, c.state.client u = .outside := by
      intro u
      apply (hc.stands u).out
      rw [hall u]
      rfl
    have hsum : ∑ u, (c.checker u).pc.lowered = Check.nbtxperwrk * n := by
      simp [hall, CheckPc.lowered, Nat.mul_comm]
    have hcounter := (hc.counter (by rw [hall 0]; rfl)).1
    rw [standing_of_outside hc.isolated hout, hsum] at hcounter
    omega

/-- Two workers before `check`, on a region of one word. -/
def twoCheckers : Checkers 2 := ⟨counterState, .create 2, fun _ => ⟨.meet, none⟩⟩

theorem twoCheckers_ready : twoCheckers.Ready getVirtStartAddr (0, 0) ∅ :=
  ⟨counterState_atRest, tmCreate_settled .., counterState_placed, rfl, fun _ => rfl⟩

/-- The turns in which worker 0 stores the counter. -/
def storeTurns : List (Fin 2) :=
  [0, 0, 1, 1, 1, 1, 1, 0, 0, 0, 1, 1] ++ List.replicate 14 0

/-- The turns in which the two workers lower the counter by one each. -/
def loopTurns : List (Fin 2) :=
  [0, 0, 1, 1, 1, 1, 1, 0, 0, 0, 0, 1, 0, 1, 0, 1, 0, 0, 0, 0, 1, 0, 1, 0, 1, 1, 1, 1, 0, 1,
    0, 1] ++ List.replicate 7 0 ++ [1, 0, 1, 0] ++ List.replicate 7 1

/-- Both workers are at their second turn of the loop, and neither complains. -/
theorem check_never_accuses_two :
    ∃ c h, Run (Checkers.step getVirtStartAddr) anyStep twoCheckers h c ∧
      ((c.checker 0).pc = .fetch 1 ∧ (c.checker 1).pc = .fetch 1) ∧
      ∀ u error, (c.checker u).pc ≠ .returned (some error) := by
  obtain ⟨⟨c, h⟩, hexec⟩ := Option.isSome_iff_exists.mp (show (exec
    (Checkers.step getVirtStartAddr) (storeTurns ++ loopTurns) (twoCheckers, [])).isSome by
      decide +kernel)
  have hpc : (exec (Checkers.step getVirtStartAddr) (storeTurns ++ loopTurns)
      (twoCheckers, [])).map (fun p => ((p.1.checker 0).pc, (p.1.checker 1).pc)) =
      some (.fetch 1, .fetch 1) := by
    decide +kernel
  rw [hexec] at hpc
  have hrun := Run.start.of_exec (storeTurns ++ loopTurns) hexec
  exact ⟨c, h, hrun, Prod.mk.inj (Option.some.inj hpc),
    (check_never_accuses (by decide) twoCheckers_ready hrun).1⟩

end DualStm
