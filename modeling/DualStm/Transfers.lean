import DualStm.Clients
import DualStm.Closures

/-!
# Transfers conserve money

The threads of the workload run `short_tx` and `long_tx` on the transactional
memory, with retries, in any epochs and any interleaving.

A transaction sees the memory its epoch started from, with its own writes over it
(`view`), so it does there what it would do alone, and that is a transfer: `Safe` is a
predicate on what is left of a closure that its reads and writes keep, and `Closures`
follows it through the calls of the library. The transactions of an epoch that left
through `tm_end` wrote different words: their transfers add up. The invariant `Banking`
has both, and remembers what the transactions of the epoch have done.
-/

namespace DualStm

variable {τ : Type}

/-! ## The words of the bank

The bank is in the words of the library's memory. What holds of the accounts is said of the
function that gives each address what its word has. -/

/-- The word of the region at an address. -/
def State.locAt [DecidableEq τ] (s : State τ ℤ) (a : ℕ) : Option Loc :=
  (s.range a WORD_SIZE).map fun r => (r.1, r.2.1)

/-- The words of the bank, and no others. -/
def cellAt [DecidableEq τ] (s : State τ ℤ) (blocks : List Block) (a : ℕ) : Option Loc :=
  if a ∈ cells blocks then s.locAt a else none

/-- What a memory has at the words of the bank. -/
def balance (place : ℕ → Option Loc) (m : Loc → ℤ) (a : ℕ) : ℤ := ((place a).map m).getD 0

/-- A memory has these values in the words of the bank. -/
abbrev HoldsBank (place : ℕ → Option Loc) (blocks : List Block) (m : Loc → ℤ) (f : ℕ → ℤ) :
    Prop :=
  (Memory.ofPlaces place).Holds place (fun _ _ _ => False) (cells blocks) [] m f

section

variable {place : ℕ → Option Loc} {blocks : List Block} {m m₀ : Loc → ℤ} {f g : ℕ → ℤ} {a : ℕ}
  {ℓ : Loc} {h : List (Event τ ℤ)} {e : Event τ ℤ} {T : Txn}

theorem balance_of_place (hp : place a = some ℓ) : balance place m a = m ℓ := by
  rw [balance, hp]
  rfl

theorem HoldsBank.apply (hh : HoldsBank place blocks m f) (ha : a ∈ cells blocks)
    (hp : place a = some ℓ) : f a = m ℓ := by
  have hread : (place a).map m = some (f a) := hh.read a ha
  rw [hp] at hread
  exact (Option.some.inj hread).symm

theorem holdsBank_balance (hapart : ((cells blocks).map place).Nodup)
    (hplace : ∀ a ∈ cells blocks, place a ≠ none) :
    HoldsBank place blocks m (balance place m) := by
  refine ⟨hapart, ?_, by simp⟩
  intro a ha
  obtain ⟨ℓ, hℓ⟩ := Option.ne_none_iff_exists'.mp (hplace a ha)
  rw [balance_of_place hℓ]
  show (place a).map m = _
  rw [hℓ]
  rfl

end

/-! ## What is left of a closure

A closure that is safe from the balances a transaction sees will end with a transfer, or with
`true`. It stays so as its reads and writes are served. -/

section

variable (bank : WorkloadBank) (place : ℕ → Option Loc) (blocks : List Block)

/-- The rest of a closure, run on the memory `m`, comes to its end: to the next turn
without a write, or to a transfer on what the bank was, `f`. -/
def Safe (f : ℕ → ℤ) (ro : Bool) (rest : Rest) (tx : Tx) (m : Loc → ℤ) : Prop :=
  rest.Saves (fun c => c.isTransfer = true) ∧
    rest.wp (Memory.ofPlaces place) (Sum.elim
      (fun l c m' => c.isRo = ro ∧ HoldsBank place blocks m' f ∧ ∃ k, Visits f blocks k l c)
      (fun r c m' => c.isRo = ro ∧ (ro = true → r = some true) ∧
        ∃ g, HoldsBank place blocks m' g ∧ Transfers blocks f g)) tx m

variable {bank place blocks} {f : ℕ → ℤ} {ro : Bool} {tx : Tx} {m : Loc → ℤ} {a : ℕ}

/-- The next turn of a closure is safe if its loop is where a walk can be. -/
theorem safe_turn {l : Locals} {k : ℕ} (hh : HoldsBank place blocks m f)
    (hs : Solvent bank.initBalance bank.start f blocks) (hv : Visits f blocks k l tx) :
    Safe place blocks f tx.isRo (turn bank l) tx m := by
  refine ⟨saves_turn hv, Prog.wp_mono (turn_wp hh (Memory.ofPlaces_lawful place) hs hv) ?_⟩
  intro r c m' hpost
  rcases r with l' | r
  · obtain ⟨rfl, hro, j, -, hv'⟩ := hpost
    exact ⟨hro, hh, j, hv'⟩
  · exact hpost

/-- What is left of a closure that is `Safe` on its view. -/
abbrev SafeRest (place : ℕ → Option Loc) (blocks : List Block) (f : ℕ → ℤ) (ro : Bool)
    (tx : Tx) : List (Access Loc ℤ) → (Loc → ℤ) → Rest → Prop :=
  fun _ m rest => Safe place blocks f ro rest tx m

theorem safe_sustained : Sustained place (SafeRest place blocks f ro tx) := by
  refine ⟨?_, ?_, ?_, ?_⟩
  · intro as m a next hs
    obtain ⟨hsaves, v, hv, hnext⟩ := hs
    obtain ⟨ℓ, hℓ, rfl⟩ := Option.map_eq_some_iff.mp hv
    exact ⟨ℓ, hℓ, hsaves _, hnext⟩
  · intro as m a v next hs
    obtain ⟨hsaves, m', hm', hnext⟩ := hs
    obtain ⟨ℓ, hℓ, rfl⟩ := Option.map_eq_some_iff.mp hm'
    exact ⟨ℓ, hℓ, hsaves, hnext⟩
  · intro as m size next hs
    obtain ⟨-, r, hr, -⟩ := hs
    cases hr
  · intro as m addr next hs
    obtain ⟨-, r, hr, -⟩ := hs
    cases hr

theorem Safe.save {c : Tx} {next : Rest} (hs : Safe place blocks f ro (.save c next) tx m) :
    c.isTransfer = true ∧ Safe place blocks f ro next c m :=
  ⟨hs.1.1, hs.1.2, hs.2⟩

end

/-! ## The attempts of a thread

Between two transactions a thread is outside; then it is in `tm_begin`, and then in its
closure, on what the bank was when its epoch started. -/

variable [DecidableEq τ]

/-- How far a thread is with its transaction. -/
inductive Attempt (place : ℕ → Option Loc) (blocks : List Block) (m₀ : Loc → ℤ)
    (h : List (Event τ ℤ)) (s : State τ ℤ) (t : τ) : Worker → Prop where
  | idle (hc : ∀ id, s.client t ≠ .inside id) : Attempt place blocks m₀ h s t .idle
  | beginning {tx : Tx} (htx : tx.isTransfer = true) (hop : Opening h s t) :
    Attempt place blocks m₀ h s t (.beginning tx)
  | running {tx : Tx} {rest : Rest} {ro : Bool} (htx : tx.isTransfer = true)
      (hin : InClosure place (SafeRest place blocks (balance place s.committed) ro tx) m₀ h s t
        rest) :
    Attempt place blocks m₀ h s t (.running tx rest)

/-- The invariant of a run of the workload. -/
structure Banking [Fintype τ] (bank : WorkloadBank) (place : ℕ → Option Loc)
    (blocks : List Block) (m₀ : Loc → ℤ) (dead : Set ℕ) (h : List (Event τ ℤ))
    (p : Clients τ) : Prop where
  /-- the transactions are isolated -/
  isolated : Isolated m₀ dead h p.state
  /-- only transactions that have begun have accesses -/
  recorded : Recorded h
  /-- the bank is where it was -/
  placed : Placed place dead p.state
  /-- all the money is there -/
  solvent : Solvent bank.initBalance bank.start (balance place p.state.committed) blocks
  /-- the threads -/
  attempt : ∀ t, Attempt place blocks m₀ h p.state t (p.worker t)
  /-- what was done in this epoch -/
  ended : ∀ {T}, Ended h T → T.epoch = p.state.epoch →
    ∃ g, HoldsBank place blocks (view m₀ h T) g ∧
      Transfers blocks (balance place p.state.committed) g

section

variable [Fintype τ] {bank : WorkloadBank} {place : ℕ → Option Loc} {blocks : List Block}
  {m₀ : Loc → ℤ} {dead : Set ℕ} {h : List (Event τ ℤ)} {s s' : State τ ℤ} {e : Event τ ℤ}
  {t u : τ} {w : Worker}

omit [DecidableEq τ] [Fintype τ] in
/-- Balances are made of words that are there. -/
theorem balance_congr [DecidableEq τ] {m m' : Loc → ℤ} (hpl : Placed place dead s)
    (hm : ∀ ℓ, ℓ.1 ∉ dead → m ℓ = m' ℓ) : balance place m = balance place m' := by
  funext a
  rcases ha : place a with _ | ℓ
  · rw [balance, balance, ha]
    rfl
  · rw [balance_of_place ha, balance_of_place ha, hm ℓ (hpl.alive ha)]

/-- Within an epoch the committed balances do not change. -/
theorem balance_step (hi : Isolated m₀ dead h s) (hi' : Isolated m₀ dead (e :: h) s')
    (hpl : Placed place dead s) (hc : ¬ e.closes) :
    balance place s'.committed = balance place s.committed :=
  balance_congr hpl fun ℓ hd => by rw [hi'.committed hd, hi.committed hd, committedMem_cons hc]

/-- **The step of another thread** leaves an attempt where it is. -/
theorem Attempt.of_other (hat : Attempt place blocks m₀ h s u w) (hs : Step s e s')
    (hm : MovesAlone s t e s') (hi : Isolated m₀ dead h s)
    (hi' : Isolated m₀ dead (e :: h) s') (hpl : Placed place dead s) (hu : u ≠ t) :
    Attempt place blocks m₀ (e :: h) s' u w := by
  cases hat with
  | idle hc => exact .idle (hm.not_inside hu hc)
  | beginning htx hop => exact .beginning htx (hop.of_other hs hm hi.books hu)
  | running htx hin =>
    obtain ⟨hin', hep⟩ := hin.of_other hs hm hi.books hu
    rw [← balance_step hi hi' hpl (hs.not_closes hep)] at hin'
    exact .running htx hin'

/-! ## The end of an epoch

At the end of an epoch the writes of several transfers come together. By isolation no two of
them have written the same word, so together they are transfers on the balances of before. -/

/-- **The transfers of an epoch.** With the commit of all of them the bank stays what
it is. -/
theorem solvent_close (hi : Isolated m₀ dead h s) (hi' : Isolated m₀ dead (e :: h) s')
    (hs : Step s e s') (hc : e.closes) (hpl : Placed place dead s)
    (hn : (cells blocks).Nodup) (hplace : ∀ a ∈ cells blocks, place a ≠ none)
    (hsol : Solvent bank.initBalance bank.start (balance place s.committed) blocks)
    (hended : ∀ T, Ended (e :: h) T → T.epoch = s.epoch →
      ∃ g, HoldsBank place blocks (view m₀ h T) g ∧
        Transfers blocks (balance place s.committed) g) :
    Solvent bank.initBalance bank.start (balance place s'.committed) blocks := by
  obtain ⟨⟨id, hl⟩, hplain, hep⟩ := hs.epoch.resolve_left fun hn => hn.1 hc
  have hloc : ∀ {a}, a ∈ cells blocks → ∃ ℓ, place a = some ℓ := fun ha =>
    Option.ne_none_iff_exists'.mp (hplace _ ha)
  -- what a transaction has written to the words of the bank
  set w : Txn → ℕ → Option ℤ := fun T a => (place a).bind fun ℓ => lastWrite T ℓ (e :: h)
  have hw : ∀ {T a ℓ}, place a = some ℓ → w T a = lastWrite T ℓ (e :: h) := by
    intro T a ℓ ha
    simp only [w, ha, Option.bind_some]
  refine (hsol.merge (l := endedIn s.epoch (e :: h)) (w := w) hn ?_ ?_).congr ?_
  · intro T hT
    obtain ⟨hT, hTep⟩ := mem_endedIn.mp hT
    obtain ⟨g, hg, htr⟩ := hended T hT hTep
    refine ⟨g, ?_, htr⟩
    intro a ha
    obtain ⟨ℓ, hℓ⟩ := hloc ha
    rw [hg.apply ha hℓ, merged, hw hℓ, balance_of_place hℓ, view, lastWrite_cons_plain hplain,
      hi.committed (hpl.alive hℓ), hTep, hi.words.mem]
  · intro a ha T hT U hU hTa hUa
    obtain ⟨ℓ, hℓ⟩ := hloc ha
    rw [hw hℓ] at hTa hUa
    obtain ⟨v, hTv⟩ := Option.ne_none_iff_exists'.mp hTa
    obtain ⟨v', hUv⟩ := Option.ne_none_iff_exists'.mp hUa
    obtain ⟨hT, hTep⟩ := mem_endedIn.mp hT
    obtain ⟨hU, hUep⟩ := mem_endedIn.mp hU
    exact hi'.unique_writer (hpl.alive hℓ) (hTep.trans hUep.symm) (by omega) hT hTv hU hUv
  · intro a ha
    obtain ⟨ℓ, hℓ⟩ := hloc ha
    rw [merged, balance_of_place hℓ, balance_of_place hℓ, hi'.committed (hpl.alive hℓ),
      hi.committed (hpl.alive hℓ), committedMem_closing hl, committedWrite]
    simp only [hw hℓ]

/-- What a step of a thread of the workload must be for `Banking.next`. -/
structure Allowed (place : ℕ → Option Loc) (blocks : List Block) (m₀ : Loc → ℤ) (dead : Set ℕ)
    (h : List (Event τ ℤ)) (s : State τ ℤ) (e : Event τ ℤ) (s' : State τ ℤ) (t : τ)
    (w : Worker) : Prop where
  /-- the step leaves the segments alone -/
  modest : Modest dead e
  /-- a transaction that ends has made a transfer -/
  ended : ∀ T b, e = .ended T b → ∃ g, HoldsBank place blocks (view m₀ h T) g ∧
    Transfers blocks (balance place s.committed) g
  /-- the thread is where it should be -/
  attempt : Attempt place blocks m₀ (e :: h) s' t w

section

variable {p : Clients τ} {a : Action τ ℤ}

/-- What the transactions of the epoch have done stays done, and with the commit a new epoch
starts, in which nobody has done anything. -/
theorem Banking.ended_next (hb : Banking bank place blocks m₀ dead h p)
    (hs : p.state.step a = some (s', e)) (he : e.avoids dead)
    (hended : ∀ T, Ended (e :: h) T → T.epoch = p.state.epoch →
      ∃ g, HoldsBank place blocks (view m₀ h T) g ∧
        Transfers blocks (balance place p.state.committed) g)
    {T : Txn} (hE : Ended (e :: h) T) (hep : T.epoch = s'.epoch) :
    ∃ g, HoldsBank place blocks (view m₀ (e :: h) T) g ∧
      Transfers blocks (balance place s'.committed) g := by
  have hstep := step_cases hs
  have hi' := hb.isolated.step hstep he
  rcases hstep.epoch with ⟨hc, hep'⟩ | ⟨⟨id, hl⟩, -, hep'⟩
  · have hlw : ∀ ℓ, lastWrite T ℓ (e :: h) = lastWrite T ℓ h := by
      intro ℓ
      obtain ⟨b, hmem⟩ := hE
      rcases List.mem_cons.mp hmem with rfl | hmem
      · rfl
      · exact lastWrite_cons_of_txn (hb.isolated.books.txn_of_left (step_movesAlone hs)
          (hasLeft_iff.mpr (.inl ⟨b, hmem⟩)))
    rw [balance_step hb.isolated hi' hb.placed hc, view_cons hc hlw]
    exact hended T hE (hep.trans hep')
  · -- nobody of the new epoch has left
    obtain ⟨b, hmem⟩ := hE
    rcases List.mem_cons.mp hmem with rfl | hmem
    · have := hstep.left_epoch rfl
      omega
    · have hbegun := hb.isolated.books.ids.begun_of_left (hasLeft_iff.mpr (.inl ⟨b, hmem⟩))
      have hle : T.epoch ≤ p.state.epoch := by
        rcases hb.isolated.books.ids.begun_lt hbegun with hlt | ⟨heq, -⟩
        · exact hlt.le
        · exact heq.le
      omega

/-- **One step of the library** keeps the bank, if it is allowed to the thread that moves. -/
theorem Banking.next (hb : Banking bank place blocks m₀ dead h p)
    (hs : p.state.step a = some (s', e)) (hn : (cells blocks).Nodup)
    (hplace : ∀ a ∈ cells blocks, place a ≠ none)
    (hall : Allowed place blocks m₀ dead h p.state e s' a.thread w) :
    Banking bank place blocks m₀ dead (e :: h) ⟨s', Function.update p.worker a.thread w⟩ := by
  have hstep := step_cases hs
  have hi' := hb.isolated.step hstep hall.modest.avoids
  -- who has left through `tm_end` has made a transfer
  have hended : ∀ T, Ended (e :: h) T → T.epoch = p.state.epoch →
      ∃ g, HoldsBank place blocks (view m₀ h T) g ∧
        Transfers blocks (balance place p.state.committed) g := by
    rintro T ⟨b, hmem⟩ hep
    rcases List.mem_cons.mp hmem with heq | hmem
    · exact hall.ended T b heq.symm
    · exact hb.ended ⟨b, hmem⟩ hep
  refine ⟨hi', hb.recorded.step hstep hb.isolated.books, hb.placed.step hstep hall.modest.keeps, ?_,
    ?_, fun {T} hE hep => hb.ended_next hs hall.modest.avoids hended hE hep⟩
  · by_cases hc : e.closes
    · exact solvent_close hb.isolated hi' hstep hc hb.placed hn hplace hb.solvent hended
    · rw [balance_step hb.isolated hi' hb.placed hc]
      exact hb.solvent
  · intro u
    obtain rfl | hu := eq_or_ne u a.thread
    · simp only [Function.update_self]
      exact hall.attempt
    · simp only [Function.update_of_ne hu]
      exact (hb.attempt u).of_other hstep (step_movesAlone hs) hb.isolated hi' hb.placed hu

/-! ## The thread that moves

Whatever it does is allowed to it: `Opening.step` and `InClosure.step` say what a step makes
of an attempt, and at the end of the closure `Safe` says that it has made a transfer. -/

/-- **A step into a transaction.** When `tm_begin` returns, the closure starts on what is
committed. -/
theorem Banking.opened {tx : Tx} (hb : Banking bank place blocks m₀ dead h p)
    (hapart : ((cells blocks).map place).Nodup)
    (hplace : ∀ a ∈ cells blocks, place a ≠ none) (hstart : bank.start ≠ 0)
    (hw : p.worker t = .beginning tx)
    (hs : p.state.step (openAction p.state t tx.isRo) = some (s', e)) :
    Allowed place blocks m₀ dead h p.state e s' t ((Worker.beginning tx).after bank e) := by
  have hat := hb.attempt t
  rw [hw] at hat
  cases hat with
  | beginning htx hop =>
    obtain ⟨hmod, hl, hcases⟩ := hop.step hb.isolated hb.recorded hs
    refine ⟨hmod, ?_, ?_⟩
    · intro T b heq
      rw [heq] at hl
      cases hl
    rcases hcases with ⟨hne, hop'⟩ | ⟨rfl, id, hin, hep, -, hview⟩
    · have hafter : (Worker.beginning tx).after bank e = .beginning tx := by
        cases e with
        | silent => exact absurd rfl hne
        | _ => rfl
      rw [hafter]
      exact .beginning htx hop'
    · have hi' := hb.isolated.step (step_cases hs) hmod.avoids
      have hbalance : balance place s'.committed =
          balance place (view m₀ (.silent :: h) (s'.txn id)) := by
        rw [balance_step hb.isolated hi' hb.placed (not_closes_of_left_none hl)]
        exact (balance_congr hb.placed hview).symm
      have hsolvent := hb.solvent
      rw [← balance_step hb.isolated hi' hb.placed (not_closes_of_left_none hl)] at hsolvent
      have hholds : HoldsBank place blocks (view m₀ (.silent :: h) (s'.txn id))
          (balance place s'.committed) := by
        rw [hbalance]
        exact holdsBank_balance hapart hplace
      have hsafe := safe_turn hholds hsolvent (visits_enter htx hstart hsolvent.linked)
      exact .running htx ⟨id, .rest, hin, .rest hsafe⟩

/-- **A step of a closure**, which is at the end of a turn of its loop only if it is at its
end. -/
theorem Banking.turned {tx : Tx} {rest : Rest} (hb : Banking bank place blocks m₀ dead h p)
    (hw : p.worker t = .running tx rest) (hrest : ∀ l, rest ≠ .ret (.inl l))
    (ha : callAction p.state t rest = some a) (hs : p.state.step a = some (s', e)) :
    Allowed place blocks m₀ dead h p.state e s' t ((Worker.running tx rest).after bank e) := by
  have hat := hb.attempt t
  rw [hw] at hat
  cases hat with
  | running htx hin =>
    obtain ⟨hmod, hturned⟩ := hin.step safe_sustained hb.isolated hb.placed ha hs
    have hi' := hb.isolated.step (step_cases hs) hmod.avoids
    have hafter : (Worker.running tx rest).after bank e = .resume tx (goOn rest e) := by
      rw [Worker.after.eq_def]
    rw [hafter]
    generalize hgo : goOn rest e = o at hturned
    cases hturned with
    | goes hin' hep hl =>
      refine ⟨hmod, ?_, ?_⟩
      · intro T b heq
        rw [heq] at hl
        cases hl
      · rw [← balance_step hb.isolated hi' hb.placed (not_closes_of_left_none hl)] at hin'
        exact .running htx hin'
    | again he hout =>
      refine ⟨hmod, ?_, .beginning htx (.waiting ?_)⟩
      · intro T b heq
        rw [heq] at he
        cases he
      · intro id
        rw [hout]
        simp
    | @done id last x hc he hout hend =>
      refine ⟨hmod, ?_, .idle ?_⟩
      · intro T b heq
        cases x with
        | inl l => exact absurd (eq_ret_of_goOn hgo) (hrest l)
        | inr r =>
          obtain ⟨rfl, -⟩ := Event.ended.inj (he.symm.trans heq)
          exact hend.2.2.2
      · intro id
        rw [hout]
        simp

end

/-! ## Runs of the workload

A run of the workload in which only transfers and balances are called keeps the bank, and a
`long_tx` that returns has found it in order. -/

/-- The discipline of the runs in which only `short_tx` and `long_tx` are called. -/
def onlyTransfers : Discipline (Clients τ) (Report τ) := fun _ _ r =>
  ∀ t tx, r = .started t tx → tx.isTransfer = true

omit [DecidableEq τ] [Fintype τ] in
theorem report_event (t : τ) (w : Worker) (e : Event τ ℤ) : (w.report t e).event? = some e := by
  rw [Worker.report.eq_def]
  split <;> rfl

omit [DecidableEq τ] [Fintype τ] in
theorem events_cons_some {r : Report τ} {g : List (Report τ)} (hr : r.event? = some e) :
    events (r :: g) = e :: events g := List.filterMap_cons_some hr

omit [DecidableEq τ] [Fintype τ] in
theorem events_cons_none {r : Report τ} {g : List (Report τ)} (hr : r.event? = none) :
    events (r :: g) = events g := List.filterMap_cons_none hr

section

variable {p p' : Clients τ} {r : Report τ} {g : List (Report τ)}

/-- What a thread does by itself keeps the bank. -/
theorem Banking.setWorker (hb : Banking bank place blocks m₀ dead h p)
    (hat : Attempt place blocks m₀ h p.state t w) :
    Banking bank place blocks m₀ dead h (p.setWorker t w) := by
  refine ⟨hb.isolated, hb.recorded, hb.placed, hb.solvent, ?_, hb.ended⟩
  intro u
  obtain rfl | hu := eq_or_ne u t
  · simp only [Clients.setWorker, Function.update_self]
    exact hat
  · simp only [Clients.setWorker, Function.update_of_ne hu]
    exact hb.attempt u

/-- A step of the library, made by a thread. -/
theorem Banking.library {a : Action τ ℤ} (hb : Banking bank place blocks m₀ dead (events g) p)
    (hn : (cells blocks).Nodup) (hplace : ∀ a ∈ cells blocks, place a ≠ none)
    (hs : p.library bank t a = some (p', r)) (ha : a.thread = t)
    (hallow : ∀ s' e, p.state.step a = some (s', e) →
      Allowed place blocks m₀ dead (events g) p.state e s' t ((p.worker t).after bank e)) :
    Banking bank place blocks m₀ dead (events (r :: g)) p' := by
  obtain ⟨⟨s', e⟩, hstep, heq⟩ := Option.map_eq_some_iff.mp hs
  obtain ⟨rfl, rfl⟩ := Prod.mk.inj heq
  subst ha
  rw [events_cons_some (report_event _ _ e)]
  exact hb.next hstep hn hplace (hallow s' e hstep)

/-- **Every step keeps the bank**, of the library or of a thread by itself. -/
theorem banking_step {m : Move τ} (hb : Banking bank place blocks m₀ dead (events g) p)
    (hapart : ((cells blocks).map place).Nodup)
    (hplace : ∀ a ∈ cells blocks, place a ≠ none) (hstart : bank.start ≠ 0)
    (hs : p.step bank m = some (p', r)) (hq : onlyTransfers g p r) :
    Banking bank place blocks m₀ dead (events (r :: g)) p' := by
  have hn : (cells blocks).Nodup := hapart.of_map
  cases m with
  | start t tx =>
    have hat := hb.attempt t
    simp only [Clients.step] at hs
    split at hs
    · rename_i hw
      obtain ⟨rfl, rfl⟩ := Prod.mk.inj (Option.some.inj hs)
      rw [hw] at hat
      rw [events_cons_none rfl]
      cases hat with
      | idle hc => exact hb.setWorker (.beginning (hq _ _ rfl) (.waiting hc))
    · cases hs
  | go t =>
    have hat := hb.attempt t
    simp only [Clients.step] at hs
    split at hs
    · cases hs
    · rename_i tx hw
      apply hb.library hn hplace hs openAction_thread
      intro s' e hstep
      rw [hw]
      exact hb.opened hapart hplace hstart hw hstep
    · rename_i tx₀ tx next hw
      obtain ⟨rfl, rfl⟩ := Prod.mk.inj (Option.some.inj hs)
      rw [hw] at hat
      rw [events_cons_none rfl]
      cases hat with
      | running htx hin =>
        obtain ⟨id, hc, hsafe⟩ := hin.inRest (by simp) (by simp)
        exact hb.setWorker (.running hsafe.save.1 ⟨id, .rest, hc, .rest hsafe.save.2⟩)
    · rename_i tx l hw
      obtain ⟨rfl, rfl⟩ := Prod.mk.inj (Option.some.inj hs)
      rw [hw] at hat
      rw [events_cons_none rfl]
      cases hat with
      | running htx hin =>
        obtain ⟨id, hc, -, -, hh, k, hv⟩ := hin.inRest (by simp) (by simp)
        exact hb.setWorker (.running htx ⟨id, .rest, hc, .rest (safe_turn hh hb.solvent hv)⟩)
    · rename_i tx rest hsave hret hw
      obtain ⟨a, ha, hs⟩ := Option.bind_eq_some_iff.mp hs
      apply hb.library hn hplace hs (callAction_thread ha)
      intro s' e hstep
      rw [hw]
      exact hb.turned hw hret ha hstep

/-- **What is returned.** A read-only transaction of the bank returns `true`. -/
theorem Banking.returned {m : Move τ} {tx : Tx} {v : Option Bool}
    (hb : Banking bank place blocks m₀ dead h p)
    (hs : p.step bank m = some (p', .returned t tx v e)) (hro : tx.isRo = true) :
    v = some true := by
  have hreport : ∀ {u : τ} {a : Action τ ℤ} {w : Worker}, p.worker u = w →
      p.library bank u a = some (p', .returned t tx v e) → w = .running tx (.ret (.inr v)) := by
    intro u a w hw hs
    obtain ⟨⟨s', e'⟩, -, heq⟩ := Option.map_eq_some_iff.mp hs
    obtain ⟨-, hr⟩ := Prod.mk.inj heq
    rw [hw, Worker.report.eq_def] at hr
    split at hr
    · injection hr with _ htx hv
      rw [htx, hv]
    · cases hr
  have hsafe : ∀ {u : τ}, p.worker u = .running tx (.ret (.inr v)) → v = some true := by
    intro u hw
    have hat := hb.attempt u
    rw [hw] at hat
    cases hat with
    | running htx hin =>
      obtain ⟨-, -, -, heq, hv, -⟩ := hin.inRest (by simp) (by simp)
      exact hv (heq.symm.trans hro)
  cases m with
  | start u tx' =>
    simp only [Clients.step] at hs
    split at hs <;> cases hs
  | go u =>
    simp only [Clients.step] at hs
    split at hs
    · cases hs
    · rename_i hw
      cases hreport hw hs
    · cases hs
    · cases hs
    · rename_i hw
      obtain ⟨a, -, hs⟩ := Option.bind_eq_some_iff.mp hs
      exact hsafe (hw.trans (hreport hw hs))

omit [Fintype τ] in
/-- Only a call of `transactional` starts a transaction. -/
theorem started_of_step {m : Move τ} {tx : Tx}
    (hs : p.step bank m = some (p', .started t tx)) : m = .start t tx := by
  have hlib : ∀ {u : τ} {a : Action τ ℤ}, p.library bank u a ≠ some (p', .started t tx) := by
    intro u a hs
    obtain ⟨⟨s', e⟩, -, heq⟩ := Option.map_eq_some_iff.mp hs
    have hev := report_event u (p.worker u) e
    rw [(Prod.mk.inj heq).2] at hev
    cases hev
  cases m with
  | start u tx' =>
    simp only [Clients.step] at hs
    split at hs
    · obtain ⟨-, hr⟩ := Prod.mk.inj (Option.some.inj hs)
      injection hr with ht htx
      rw [ht, htx]
    · cases hs
  | go u =>
    simp only [Clients.step] at hs
    split at hs
    · cases hs
    · exact absurd hs hlib
    · cases hs
    · cases hs
    · obtain ⟨a, -, hs⟩ := Option.bind_eq_some_iff.mp hs
      exact absurd hs hlib

/-- The word an address stands for, as it is committed. -/
def State.wordAt (s : State τ ℤ) (a : ℕ) : ℤ := balance s.locAt s.committed a

/-- A committed state of the bank, with no transaction running: the accounts are in
segments nobody has freed, each word in a place of its own, and the law of the bank
holds. -/
structure BankState (bank : WorkloadBank) (blocks : List Block) (dead : Set ℕ)
    (s : State τ ℤ) : Prop where
  /-- nobody is in a transaction -/
  atRest : s.AtRest
  /-- no word is written -/
  settled : s.region.Settled dead
  /-- words are as long as a pointer -/
  align : s.region.align = WORD_SIZE
  /-- the address of the first segment -/
  start : bank.start ≠ 0
  /-- the words of the bank are in use -/
  located : ∀ a ∈ cells blocks, ∃ ℓ, s.locAt a = some ℓ ∧ ℓ.1 ∉ dead
  /-- the words of the bank are different words of the region -/
  apart : ((cells blocks).map s.locAt).Nodup
  /-- the law of the bank -/
  solvent : Solvent bank.initBalance bank.start s.wordAt blocks

omit [Fintype τ] in
theorem cellAt_of_mem {a : ℕ} (ha : a ∈ cells blocks) : cellAt s blocks a = s.locAt a := if_pos ha

omit [Fintype τ] in
/-- An access to a word of the bank is to one word. -/
theorem BankState.placed (hbank : BankState bank blocks dead s) :
    Placed (cellAt s blocks) dead s := by
  have hloc : ∀ {a ℓ}, cellAt s blocks a = some ℓ → a ∈ cells blocks ∧ s.locAt a = some ℓ := by
    intro a ℓ hp
    rw [cellAt] at hp
    split at hp
    · rename_i ha
      exact ⟨ha, hp⟩
    · cases hp
  refine ⟨fun {a ℓ} hp => ?_, fun {a ℓ} hp => ?_⟩
  · obtain ⟨-, hp⟩ := hloc hp
    obtain ⟨⟨seg, start, stop⟩, hr, rfl⟩ := Option.map_eq_some_iff.mp hp
    obtain ⟨-, -, hstart, hstop⟩ := range_eq_some.mp hr
    rw [hbank.align, Nat.div_self (by decide), show toInt32 ((1 : ℕ) : ℤ) = 1 by decide] at hstop
    have hlt : start ≤ 0xFFFF := by
      rw [← hstart]
      exact (Nat.div_le_self _ _).trans Nat.and_le_right
    have heq := toInt32_of_lt (k := start + 1) (by omega)
    push_cast at heq hstop
    rw [hr, ← hstop, heq]
    push_cast
    rfl
  · obtain ⟨ha, hp⟩ := hloc hp
    obtain ⟨ℓ', hℓ', hd⟩ := hbank.located a ha
    obtain rfl := Option.some.inj (hp.symm.trans hℓ')
    exact hd

/-- **Transfers conserve money.** Start the threads from a committed state of the
bank. In every state that any number of `short_tx` and `long_tx`, with their
retries, lead to, no account is overdrawn and the committed balances and parities
add up to the same; and every `long_tx` returns `true`. -/
theorem transfers_conserve {p₀ p : Clients τ} {g : List (Report τ)}
    (hbank : BankState bank blocks dead p₀.state) (hidle : ∀ t, p₀.worker t = .idle)
    (hr : Run (Clients.step bank) onlyTransfers p₀ g p) :
    Solvent bank.initBalance bank.start p.state.wordAt blocks ∧
      ∀ t n v e, .returned t (.long n) v e ∈ g → v = some true := by
  have hcell : ∀ a ∈ cells blocks, cellAt p₀.state blocks a = p₀.state.locAt a :=
    fun a => cellAt_of_mem
  have hapart : ((cells blocks).map (cellAt p₀.state blocks)).Nodup := by
    rw [List.map_congr_left hcell]
    exact hbank.apart
  have hplace : ∀ a ∈ cells blocks, cellAt p₀.state blocks a ≠ none := by
    intro a ha
    obtain ⟨ℓ, hℓ, -⟩ := hbank.located a ha
    rw [hcell a ha, hℓ]
    simp
  have hb : Banking bank (cellAt p₀.state blocks) blocks p₀.state.committed dead (events g) p ∧
      ∀ t n v e, .returned t (.long n) v e ∈ g → v = some true := by
    induction hr with
    | start =>
      refine ⟨⟨.of_settled hbank.atRest hbank.settled, fun _ _ => rfl, hbank.placed, ?_,
        fun t => ?_, ?_⟩, by simp⟩
      · apply hbank.solvent.congr
        intro a ha
        rw [State.wordAt, balance, balance, hcell a ha]
      · rw [hidle t]
        refine .idle ?_
        intro id
        rw [show p₀.state.client t = .outside from hbank.atRest.1.2 t]
        simp
      · rintro T ⟨b, hT⟩
        cases hT
    | @next g p p' m r hr hs hq ih =>
      refine ⟨banking_step ih.1 hapart hplace hbank.start hs hq, ?_⟩
      intro t n v e hmem
      rcases List.mem_cons.mp hmem with rfl | hmem
      · exact ih.1.returned hs rfl
      · exact ih.2 t n v e hmem
  refine ⟨hb.1.solvent.congr ?_, hb.2⟩
  intro a ha
  obtain ⟨ℓ, hℓ, -⟩ := hbank.located a ha
  have hp : cellAt p₀.state blocks a = some ℓ := (hcell a ha).trans hℓ
  rw [balance_of_place hp, State.wordAt, balance_of_place]
  rw [State.locAt, hb.1.placed.range hp]
  rfl

end

end

/-- A bank of two accounts in the first segment of a region. -/
def pairClients : Clients Bool where
  state :=
    { region := (tmCreate 40 8 (fun _ => initSegment 8 0) fun _ => false).setSegment 0
        { initSegment 8 40 with wordsArrayA := fun j => [2, 0, 0, 100, 100].getD j 0 }
      gate := restGate
      thread := fun _ => ⟨false, .rest⟩ }
  worker := fun _ => .idle

theorem pairClients_bankState :
    BankState ⟨getVirtStartAddr, 2, 100⟩ [⟨getVirtStartAddr, 2, 2⟩] ∅ pairClients.state := by
  have hlocated : ∀ a ∈ cells [⟨getVirtStartAddr, 2, 2⟩], pairClients.state.locAt a ≠ none := by
    decide +kernel
  refine ⟨⟨⟨rfl, fun _ => rfl⟩, fun _ => rfl⟩, ⟨⟨?_, fun {i} hi => by cases hi⟩, ?_⟩, rfl,
    by decide +kernel, ?_, by decide +kernel, ⟨?_, ?_, by decide +kernel, by decide +kernel⟩⟩
  · intro i hi hd
    obtain rfl : i = 0 := Nat.lt_one_iff.mp hi
    exact absurd rfl hd
  · intro i j hi _ _
    obtain rfl : i = 0 := Nat.lt_one_iff.mp hi
    rfl
  · intro a ha
    obtain ⟨ℓ, hℓ⟩ := Option.ne_none_iff_exists'.mp (hlocated a ha)
    exact ⟨ℓ, hℓ, Set.notMem_empty _⟩
  · exact ⟨rfl, by decide +kernel, by decide +kernel, 0, by decide +kernel, rfl⟩
  · simp [Fits]

/-- The moves of a transfer and then a balance. -/
def pairMoves : List (Move Bool) :=
  .start true (.short 0 1) :: List.replicate 19 (.go true) ++
    .start false (.long 0) :: List.replicate 21 (.go false)

/-- The transfer is made, and the other thread finds all the money. -/
theorem transfers_conserve_pair :
    ∃ p g, Run (Clients.step ⟨getVirtStartAddr, 2, 100⟩) onlyTransfers pairClients g p ∧
      (∃ e, .returned true (.short 0 1) (some true) e ∈ g) ∧
      (∃ e, .returned false (.long 2) (some true) e ∈ g) ∧
      Solvent 100 getVirtStartAddr p.state.wordAt [⟨getVirtStartAddr, 2, 2⟩] := by
  obtain ⟨⟨p, g⟩, hexec⟩ := Option.isSome_iff_exists.mp (show (exec
    (Clients.step ⟨getVirtStartAddr, 2, 100⟩) pairMoves (pairClients, [])).isSome by decide +kernel)
  have hmem : ∀ r, (exec (Clients.step ⟨getVirtStartAddr, 2, 100⟩) pairMoves
      (pairClients, [])).any (fun q => q.2.contains r) = true → r ∈ g := by
    intro r hr
    rw [hexec] at hr
    simpa using hr
  have hrun : Run (Clients.step ⟨getVirtStartAddr, 2, 100⟩) onlyTransfers pairClients g p := by
    refine Run.start.of_exec_of pairMoves ?_ hexec
    intro h p p' r m hm hs _ t tx heq
    subst heq
    rw [started_of_step hs] at hm
    simp only [pairMoves, List.cons_append, List.mem_cons, List.mem_append, List.mem_replicate,
      Move.start.injEq, reduceCtorEq, and_false, false_or, or_false] at hm
    rcases hm with ⟨-, rfl⟩ | ⟨-, rfl⟩
    · rfl
    · rfl
  exact ⟨p, g, hrun, ⟨.ended ⟨0, 0⟩ true, hmem _ (by decide +kernel)⟩,
    ⟨.ended ⟨1, 0⟩ true, hmem _ (by decide +kernel)⟩,
    (transfers_conserve pairClients_bankState (fun _ => rfl) hrun).1⟩

end DualStm
