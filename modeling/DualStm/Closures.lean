import DualStm.Conflicts
import DualStm.Library.Trace
import DualStm.Ranges
import DualStm.Scheduling

/-!
# A closure on the transactional memory

What `transactional` does with a closure, whatever the closure is: `tm_begin`, the calls
of the closure one after the other, `tm_end`, and the closure once more from its start
after an abort.

A transaction sees the memory its epoch started from, under its own writes: `view`. So a
closure that only reads and writes words that nobody frees does there what it would do
alone on its view. This is stated for any predicate `P` on what is left of the closure,
after its accesses so far and on its view, that a read and a write keep: `Sustained`.
`Opening` and `InClosure` say how far a thread is, `Opening.step` and `InClosure.step`
what its steps make of that, and `Opening.of_other` and `InClosure.of_other` that the steps
of other threads make nothing of it.

`OnCourse` is such a predicate: what `wp` says of a closure is what comes of it on the
library, however many attempts it takes and whatever the other threads do meanwhile, and
the accesses of its transaction are those that lead to what is left of it. The closures of
the bank workload have another one, in `Transfers`.
-/

namespace DualStm

variable {τ C α : Type}

/-- What is left of a closure without captured variables. -/
abbrev Closure (α : Type) := Prog Unit ℤ α

/-! ## What a transaction sees

The committed values of its epoch, and over them what it has written itself. As long as
the epoch goes on, only its own writes change this. -/

/-- The memory as a transaction sees it. -/
def view (m₀ : Loc → ℤ) (h : List (Event τ ℤ)) (T : Txn) (ℓ : Loc) : ℤ :=
  (lastWrite T ℓ h).getD (epochMem m₀ T.epoch h ℓ)

section

variable {m₀ : Loc → ℤ} {ℓ : Loc} {h : List (Event τ ℤ)} {e : Event τ ℤ} {T : Txn}

theorem lastWrite_cons_of_txn (he : e.txn? ≠ some T) :
    lastWrite T ℓ (e :: h) = lastWrite T ℓ h := by
  cases e with
  | wrote U m v =>
    apply lastWrite_wrote_ne
    rintro ⟨rfl, -⟩
    exact he rfl
  | _ => rfl

/-- A transaction sees what it saw if it does not write. -/
theorem view_cons (hc : ¬ e.closes) (hw : ∀ ℓ, lastWrite T ℓ (e :: h) = lastWrite T ℓ h) :
    view m₀ (e :: h) T = view m₀ h T := by
  funext ℓ
  rw [view, view, hw, epochMem_cons hc]

theorem view_plain (hl : e.left? = none) (hpl : e.isPlain = true) :
    view m₀ (e :: h) T = view m₀ h T :=
  view_cons (not_closes_of_left_none hl) fun _ => lastWrite_cons_plain hpl

theorem view_wrote {v : ℤ} :
    view m₀ (.wrote T ℓ v :: h) T = Function.update (view m₀ h T) ℓ v := by
  funext k
  rw [view, epochMem_cons (not_closes_of_left_none rfl)]
  obtain rfl | hk := eq_or_ne k ℓ
  · rw [lastWrite_wrote, Function.update_self]
    rfl
  · rw [lastWrite_wrote_ne fun hc => hk hc.2.symm, Function.update_of_ne hk, view]

theorem accesses_read {v : ℤ} : accesses T (.read T ℓ v :: h) = accesses T h ++ [.read ℓ v] := by
  rw [accesses, if_pos rfl]

theorem accesses_wrote {v : ℤ} :
    accesses T (.wrote T ℓ v :: h) = accesses T h ++ [.write ℓ v] := by
  rw [accesses, if_pos rfl]

theorem accesses_cons_of_txn (he : e.txn? ≠ some T) :
    accesses T (e :: h) = accesses T h := by
  cases e with
  | read U ℓ v | wrote U ℓ v =>
    rw [accesses, if_neg fun hU => he (congrArg some hU), List.append_nil]
  | _ => rfl

/-- A transaction without accesses has written nothing. -/
theorem lastWrite_of_accesses (ha : accesses T h = []) : lastWrite T ℓ h = none := by
  rw [← lastIn_accesses]
  exact congrArg (lastIn ℓ) ha

end

/-! ## What is left of a closure

A closure calls the library for one word at a time. Between its accesses its future is a
predicate on the program that is left; in a call, it is that predicate before the word is
accessed or after it. -/

/-- A predicate on what is left of a closure, after the accesses `as` and on the memory `m`,
that is kept by reads and writes and speaks of words that have a place. No segment comes or
goes. -/
structure Sustained (place : ℕ → Option Loc)
    (P : List (Access Loc ℤ) → (Loc → ℤ) → Prog C ℤ α → Prop) : Prop where
  /-- a read goes on with what is there -/
  read : ∀ {as m a next}, P as m (.read a next) →
    ∃ ℓ, place a = some ℓ ∧ P (as ++ [.read ℓ (m ℓ)]) m (next (m ℓ))
  /-- a write goes on after the word has changed -/
  write : ∀ {as m a v next}, P as m (.write a v next) →
    ∃ ℓ, place a = some ℓ ∧ P (as ++ [.write ℓ v]) (Function.update m ℓ v) next
  /-- nothing is allocated -/
  alloc : ∀ {as m size next}, ¬ P as m (.alloc size next)
  /-- nothing is freed -/
  free : ∀ {as m addr next}, ¬ P as m (.free addr next)

/-- Where a thread in its closure is in the library: between two calls, or in one of
them before or after its only word, or in an abort. -/
inductive Serving (place : ℕ → Option Loc)
    (P : List (Access Loc ℤ) → (Loc → ℤ) → Prog C ℤ α → Prop) (as : List (Access Loc ℤ))
    (m : Loc → ℤ) : Prog C ℤ α → Call ℤ → Prop where
  | rest {p : Prog C ℤ α} (hp : P as m p) : Serving place P as m p .rest
  | reading {a seg start : ℕ} {next : ℤ → Prog C ℤ α} (ha : place a = some (seg, start))
      (hp : P as m (.read a next)) :
    Serving place P as m (.read a next) (.reading seg start start (start + 1 : ℕ) 0 [])
  | copied {a seg start off : ℕ} {v : ℤ} {next : ℤ → Prog C ℤ α} (hp : P as m (next v)) :
    Serving place P as m (.read a next)
      (.reading seg start (start + 1) (start + 1 : ℕ) off [(0, v)])
  | writing {a seg start : ℕ} {v : ℤ} {next : Prog C ℤ α} (ha : place a = some (seg, start))
      (hp : P as m (.write a v next)) :
    Serving place P as m (.write a v next)
      (.writing seg start start (start + 1 : ℕ) (fun _ => v) 0)
  | stored {a seg start : ℕ} {v : ℤ} {next : Prog C ℤ α} (hp : P as m next) :
    Serving place P as m (.write a v next)
      (.writing seg start (start + 1) (start + 1 : ℕ) (fun _ => v) 1)
  | readAborts {a i j : ℕ} {next : ℤ → Prog C ℤ α} :
    Serving place P as m (.read a next) (.aborting i j)
  | writeAborts {a i j : ℕ} {v : ℤ} {next : Prog C ℤ α} :
    Serving place P as m (.write a v next) (.aborting i j)

section

variable {place : ℕ → Option Loc} {P : List (Access Loc ℤ) → (Loc → ℤ) → Prog C ℤ α → Prop}
  {as as' : List (Access Loc ℤ)} {m m' : Loc → ℤ} {p : Prog C ℤ α} {c : Call ℤ}

/-- In an abort, nothing is said of the closure but that it has made a call. -/
theorem Serving.aborting {i j i' j' : ℕ} (hs : Serving place P as m p (.aborting i j)) :
    Serving place P as' m' p (.aborting i' j') := by
  cases hs with
  | readAborts => exact .readAborts
  | writeAborts => exact .writeAborts

/-- A closure that neither reads nor writes next is between two calls. -/
theorem Serving.inRest (hs : Serving place P as m p c) (hr : ∀ a next, p ≠ .read a next)
    (hw : ∀ a v next, p ≠ .write a v next) : c = .rest ∧ P as m p := by
  cases hs with
  | rest hp => exact ⟨rfl, hp⟩
  | reading | copied | readAborts => exact absurd rfl (hr _ _)
  | writing | stored | writeAborts => exact absurd rfl (hw _ _ _)

end

section

variable (place : ℕ → Option Loc) (post : α → (Loc → ℤ) → Prop)

/-- The closure comes to its end, and to one with `post`. -/
def Comes (p : Closure α) (m : Loc → ℤ) : Prop :=
  p.Saves (fun _ => False) ∧ p.wp (Memory.ofPlaces place) (fun a _ m' => post a m') () m

/-- What is left of the closure `p₀` after the accesses `as`, which will come to its end
on `m`. -/
structure OnCourse (p₀ : Closure α) (as : List (Access Loc ℤ)) (m : Loc → ℤ)
    (p : Closure α) : Prop where
  /-- how far it has come -/
  leads : p₀.Leads place as p
  /-- what will come of it -/
  comes : Comes place post p m

variable {place post} {p₀ : Closure α}

theorem OnCourse.sustained : Sustained place (OnCourse place post p₀) := by
  refine ⟨?_, ?_, ?_, ?_⟩
  · intro as m a next hp
    obtain ⟨hleads, hsaves, v, hv, hnext⟩ := hp
    obtain ⟨ℓ, hℓ, rfl⟩ := Option.map_eq_some_iff.mp hv
    exact ⟨ℓ, hℓ, hleads.read hℓ _, hsaves _, hnext⟩
  · intro as m a v next hp
    obtain ⟨hleads, hsaves, m', hm', hnext⟩ := hp
    obtain ⟨ℓ, hℓ, rfl⟩ := Option.map_eq_some_iff.mp hm'
    exact ⟨ℓ, hℓ, hleads.write hℓ, hsaves, hnext⟩
  · intro as m size next hp
    obtain ⟨-, -, r, hr, -⟩ := hp
    cases hr
  · intro as m addr next hp
    obtain ⟨-, -, r, hr, -⟩ := hp
    cases hr

end

/-! ## How far a thread is

A thread in `tm_begin` is `Opening`, and from then on `InClosure`, until it leaves. The
steps of other threads leave that as it is, since they are not in its transaction and do
not end its epoch. -/

variable [DecidableEq τ]

/-- The words at these addresses stay where they are. -/
structure Placed (place : ℕ → Option Loc) (dead : Set ℕ) (s : State τ ℤ) : Prop where
  /-- where an access to them goes -/
  range : ∀ {a ℓ}, place a = some ℓ → s.range a WORD_SIZE = some (ℓ.1, ℓ.2, ((ℓ.2 + 1 : ℕ) : ℤ))
  /-- nobody has freed them -/
  alive : ∀ {a ℓ}, place a = some ℓ → ℓ.1 ∉ dead

/-- Only transactions that have begun have accesses. -/
def Recorded (h : List (Event τ ℤ)) : Prop := ∀ T, T ∉ begun h → accesses T h = []

/-- A thread is in `tm_begin`, or about to call it. -/
inductive Opening (h : List (Event τ ℤ)) (s : State τ ℤ) (t : τ) : Prop where
  | waiting (hc : ∀ id, s.client t ≠ .inside id)
  | entered {id : ℕ} (hc : InCall s t id .beginning) (ha : accesses (s.txn id) h = [])

/-- A thread is in its closure, with `p` left of it, and `P` holds of that on its view. -/
def InClosure (place : ℕ → Option Loc)
    (P : List (Access Loc ℤ) → (Loc → ℤ) → Prog C ℤ α → Prop) (m₀ : Loc → ℤ)
    (h : List (Event τ ℤ)) (s : State τ ℤ) (t : τ) (p : Prog C ℤ α) : Prop :=
  ∃ id c, InCall s t id c ∧ Serving place P (accesses (s.txn id) h) (view m₀ h (s.txn id)) p c

omit [DecidableEq τ] in
/-- Between two calls `P` holds of what is left. -/
theorem InClosure.inRest {place : ℕ → Option Loc}
    {P : List (Access Loc ℤ) → (Loc → ℤ) → Prog C ℤ α → Prop} {m₀ : Loc → ℤ}
    {h : List (Event τ ℤ)} {s : State τ ℤ} {t : τ} {p : Prog C ℤ α}
    (hin : InClosure place P m₀ h s t p) (hr : ∀ a next, p ≠ .read a next)
    (hw : ∀ a v next, p ≠ .write a v next) :
    ∃ id, InCall s t id .rest ∧ P (accesses (s.txn id) h) (view m₀ h (s.txn id)) p := by
  obtain ⟨id, c, hc, hserving⟩ := hin
  obtain ⟨rfl, hp⟩ := hserving.inRest hr hw
  exact ⟨id, hc, hp⟩

variable [Fintype τ] {place : ℕ → Option Loc}
  {P : List (Access Loc ℤ) → (Loc → ℤ) → Prog C ℤ α → Prop} {m₀ : Loc → ℤ} {dead : Set ℕ}
  {h : List (Event τ ℤ)} {s s' : State τ ℤ} {e : Event τ ℤ} {t u : τ} {id : ℕ}
  {c : Call ℤ} {p : Prog C ℤ α} {a : Action τ ℤ}

omit [Fintype τ] in
theorem Placed.step (hpl : Placed place dead s) (hs : Step s e s')
    (hk : ∀ k, e.keeps k) : Placed place dead s' :=
  ⟨fun ha => range_sameSegment (hs.sameSegment (hk _)) (hpl.range ha), hpl.alive⟩

/-- A transaction that has left does nothing more. -/
theorem Books.txn_of_left (hb : Books h s) (hm : MovesAlone s t e s') {T : Txn}
    (hl : HasLeft h T) : e.txn? ≠ some T := by
  intro he
  obtain ⟨hep, hin | hgen⟩ := hm.txn he
  · have htxn : s.txn T.id = T := by rw [State.txn, ← hep]
    exact (hb.ids.holds.mp hin).2 (htxn ▸ hl)
  · rcases hb.ids.begun_lt (hb.ids.begun_of_left hl) with hlt | ⟨-, hlt⟩
    · exact hlt.ne hep
    · exact hlt.ne hgen

theorem Recorded.step (hrec : Recorded h) (hs : Step s e s') (hb : Books h s) :
    Recorded (e :: h) := by
  intro T hT
  have hold : accesses T h = [] := hrec T fun hmem => hT (begun_subset_cons hmem)
  have hnew : ∀ U ℓ, ((∃ v, e = .read U ℓ v) ∨ ∃ v, e = .wrote U ℓ v) → U ≠ T := by
    rintro U ℓ he rfl
    exact hT (begun_subset_cons (hs.access_begun hb he))
  cases e with
  | read U ℓ v => rw [accesses, hold, if_neg (hnew U ℓ (.inl ⟨v, rfl⟩)), List.append_nil]
  | wrote U ℓ v => rw [accesses, hold, if_neg (hnew U ℓ (.inr ⟨v, rfl⟩)), List.append_nil]
  | _ => exact hold

theorem Recorded.run {Q : Discipline (State τ ℤ) (Event τ ℤ)} {s₀ : State τ ℤ} (hrest : s₀.AtRest)
    (hr : Run State.step Q s₀ h s) : Recorded h := by
  induction hr with
  | start => exact fun _ _ => rfl
  | next hr hs _ ih => exact ih.step (step_cases hs) (Books.run hrest hr)

/-- **The step of another thread** leaves a thread in `tm_begin` where it is. -/
theorem Opening.of_other (hop : Opening h s u) (hs : Step s e s') (hm : MovesAlone s t e s')
    (hb : Books h s) (hu : u ≠ t) : Opening (e :: h) s' u := by
  cases hop with
  | waiting hc => exact .waiting (hm.not_inside hu hc)
  | entered hc ha =>
    obtain ⟨hc', hep, htxn⟩ := hm.inCall hs hb.gate hu hc
    refine .entered hc' ?_
    rw [State.txn, hep, accesses_cons_of_txn htxn]
    exact ha

/-- **The step of another thread** leaves a thread in its closure where it is: the epoch
goes on, and its view stays the same. -/
theorem InClosure.of_other (hin : InClosure place P m₀ h s u p) (hs : Step s e s')
    (hm : MovesAlone s t e s') (hb : Books h s) (hu : u ≠ t) :
    InClosure place P m₀ (e :: h) s' u p ∧ s'.epoch = s.epoch := by
  obtain ⟨id, c, hc, hsv⟩ := hin
  obtain ⟨hc', hep, htxn⟩ := hm.inCall hs hb.gate hu hc
  have hT : s'.txn id = s.txn id := congrArg (Txn.mk · id) hep
  refine ⟨⟨id, c, hc', ?_⟩, hep⟩
  rw [hT, view_cons (hs.not_closes hep) fun ℓ => lastWrite_cons_of_txn htxn,
    accesses_cons_of_txn htxn]
  exact hsv

/-! ## `tm_begin`

A thread that gets its id has done nothing under it, so that when `tm_begin` returns its
view is what is committed: this is where a closure starts. -/

/-- What a step of a closure leaves alone. -/
structure Modest (dead : Set ℕ) (e : Event τ ℤ) : Prop where
  /-- the dead segments -/
  avoids : e.avoids dead
  /-- every segment is there as before -/
  keeps : ∀ k, e.keeps k
  /-- no segment is freed -/
  frees : e.isFree = false

/-- A thread that gets its id has done nothing under it. -/
theorem Opening.letIn {b : Batcher} (hb : Books h s) (hrec : Recorded h)
    (hcall : s.call t = .beginning)
    (hep : b.curEpoch = s.epoch) (hgen : b.txIdGenerator = s.gate.batcher.txIdGenerator)
    {T : Txn} : Opening (.began t T :: h) (s.setGate (Gate.letIn b s.gate.client t)) t := by
  have hc : InCall (s.setGate (Gate.letIn b s.gate.client t)) t
      s.gate.batcher.txIdGenerator .beginning := by
    refine ⟨?_, hcall⟩
    rw [← hgen]
    exact Function.update_self ..
  refine .entered hc ?_
  have htxn : (s.setGate (Gate.letIn b s.gate.client t)).txn s.gate.batcher.txIdGenerator =
      s.txn s.gate.batcher.txIdGenerator := congrArg (Txn.mk · _) hep
  rw [htxn]
  apply hrec _
  intro hmem
  rcases hb.ids.begun_lt hmem with hlt | ⟨-, hlt⟩
  · exact lt_irrefl _ hlt
  · exact lt_irrefl _ hlt

/-- A transaction without accesses sees what is committed. -/
theorem view_eq_committed (hi : Isolated m₀ dead h s) (ha : accesses (s.txn id) h = [])
    {ℓ : Loc} (hd : ℓ.1 ∉ dead) : view m₀ h (s.txn id) ℓ = s.committed ℓ := by
  rw [view, lastWrite_of_accesses ha, hi.committed hd, ← hi.words.mem]
  rfl

/-- **A step of `tm_begin`.** It goes on, or it returns: with an id, and with a view that is
what is committed. -/
theorem Opening.step {isRo : Bool} (hop : Opening h s t) (hi : Isolated m₀ dead h s)
    (hrec : Recorded h) (hs : s.step (openAction s t isRo) = some (s', e)) :
    Modest dead e ∧ e.left? = none ∧
      (e ≠ .silent ∧ Opening (e :: h) s' t ∨
        e = .silent ∧ ∃ id, InCall s' t id .rest ∧ s'.epoch = s.epoch ∧
          accesses (s'.txn id) (e :: h) = [] ∧
          ∀ ℓ, ℓ.1 ∉ dead → view m₀ (e :: h) (s'.txn id) ℓ = s.committed ℓ) := by
  cases opened_of_step hs with
  | called hc hr =>
    refine ⟨⟨trivial, fun _ => trivial, rfl⟩, rfl, .inl ⟨by simp, .waiting ?_⟩⟩
    intro id
    rw [show State.client _ t = .outside from hc]
    simp
  | waiting hc =>
    refine ⟨⟨trivial, fun _ => trivial, rfl⟩, rfl, .inl ⟨by simp, .waiting ?_⟩⟩
    intro id
    simp [State.client, Gate.wait]
  | letIn hr hep hgen =>
    have hcall : s.call t = .beginning := by
      rcases hr with hcall | ⟨since, hc⟩
      · exact hcall
      · exact hi.books.threads.woken hc
    exact ⟨⟨trivial, fun _ => trivial, rfl⟩, rfl,
      .inl ⟨by simp, .letIn hi.books hrec hcall hep hgen⟩⟩
  | @flagged id hc hr =>
    refine ⟨⟨trivial, fun _ => trivial, rfl⟩, rfl, .inr ⟨rfl, id, ?_⟩⟩
    cases hop with
    | waiting hout => exact absurd hc (hout id)
    | @entered k hc' hnone =>
      obtain rfl : id = k := Client.inside.inj (hc.symm.trans hc'.client)
      refine ⟨⟨hc, State.setCall_call_self ..⟩, rfl, hnone, fun ℓ hd => ?_⟩
      have hview : view m₀ (.silent :: h) (s.txn id) ℓ = view m₀ h (s.txn id) ℓ :=
        congrFun (view_plain rfl rfl) ℓ
      exact hview.trans (view_eq_committed hi hnone hd)

/-! ## The calls

One lemma for each call that a closure with a `Sustained` future can make, and for the
abort; `InClosure.step` puts them together. -/

/-- What came of a step of a closure: it goes on in the same epoch, or its transaction has
left. -/
inductive Turned (place : ℕ → Option Loc)
    (P : List (Access Loc ℤ) → (Loc → ℤ) → Prog C ℤ α → Prop) (m₀ : Loc → ℤ)
    (h : List (Event τ ℤ)) (s : State τ ℤ) (e : Event τ ℤ) (s' : State τ ℤ) (t : τ) :
    ClosureOutcome C α → Prop where
  | goes {p : Prog C ℤ α} (hin : InClosure place P m₀ (e :: h) s' t p)
      (hep : s'.epoch = s.epoch) (hl : e.left? = none) : Turned place P m₀ h s e s' t (.goes p)
  | again {id : ℕ} {last : Bool} (he : e = .aborted (s.txn id) last)
      (hout : s'.client t = .outside) : Turned place P m₀ h s e s' t .again
  | done {id : ℕ} {last : Bool} {x : α} (hc : InCall s t id .rest)
      (he : e = .ended (s.txn id) last) (hout : s'.client t = .outside)
      (hend : P (accesses (s.txn id) h) (view m₀ h (s.txn id)) (.ret x)) :
    Turned place P m₀ h s e s' t (.done x)

omit [DecidableEq τ] [Fintype τ] in
/-- A step in the same epoch that leaves the thread in its call is a turn, if the closure is
served as before. -/
theorem Turned.of_serving (hc : InCall s' t id c) (hep : s'.epoch = s.epoch) (hl : e.left? = none)
    (hsv : Serving place P (accesses (s.txn id) (e :: h)) (view m₀ (e :: h) (s.txn id)) p c) :
    Turned place P m₀ h s e s' t (.goes p) := by
  refine .goes ⟨id, c, hc, ?_⟩ hep hl
  rw [show s'.txn id = s.txn id by rw [State.txn, State.txn, hep]]
  exact hsv

omit [Fintype τ] in
/-- Between two calls a closure begins the next one, and what it was served stays. -/
theorem turned_call (hP : Sustained place P) (hpl : Placed place dead s)
    (hc : InCall s t id .rest) (hp : P (accesses (s.txn id) h) (view m₀ h (s.txn id)) p)
    (ha : p.nextCall t = some a) (hs : s.step a = some (s', e)) :
    Modest dead e ∧ Turned place P m₀ h s e s' t (goOn p e) := by
  have hclient := hc.client
  have hcall := hc.call
  cases p with
  | read addr next =>
    obtain rfl := Option.some.inj ha
    obtain ⟨ℓ, hℓ, -⟩ := hP.read hp
    simp only [State.step, hclient, hcall, hpl.range hℓ] at hs
    obtain ⟨rfl, rfl⟩ := Prod.mk.inj (Option.some.inj hs)
    rw [← view_plain (e := .silent) rfl rfl] at hp
    exact ⟨⟨trivial, fun _ => trivial, rfl⟩,
      .of_serving ⟨hclient, State.setCall_call_self ..⟩ rfl rfl (.reading hℓ hp)⟩
  | write addr v next =>
    obtain rfl := Option.some.inj ha
    obtain ⟨ℓ, hℓ, -⟩ := hP.write hp
    rcases hro : (s.thread t).isRo with _ | _
    · simp only [State.step, hclient, hcall, hpl.range hℓ, hro] at hs
      obtain ⟨rfl, rfl⟩ := Prod.mk.inj (Option.some.inj hs)
      rw [← view_plain (e := .silent) rfl rfl] at hp
      exact ⟨⟨trivial, fun _ => trivial, rfl⟩,
        .of_serving ⟨hclient, State.setCall_call_self ..⟩ rfl rfl (.writing hℓ hp)⟩
    · simp only [State.step, hclient, hcall, hpl.range hℓ, hro] at hs
      cases hs
  | alloc size next => exact absurd hp hP.alloc
  | free addr next => exact absurd hp hP.free
  | save c next => cases ha
  | fault => cases ha
  | ret x =>
    obtain rfl := Option.some.inj ha
    simp only [State.step, hcall] at hs
    obtain ⟨⟨last, rfl⟩, hout⟩ := leave_outside hclient hs
    exact ⟨⟨trivial, fun _ => trivial, rfl⟩, .done hc rfl hout hp⟩

/-- A word of a `tm_read` is added to what the closure was served, with the value the
transaction sees. -/
theorem turned_read (hP : Sustained place P) {addr seg start idx off : ℕ} {stop : ℤ}
    {next : ℤ → Prog C ℤ α} {target : List (ℕ × ℤ)} (hi : Isolated m₀ dead h s)
    (hpl : Placed place dead s) (hc : InCall s t id (.reading seg start idx stop off target))
    (hsv : Serving place P (accesses (s.txn id) h) (view m₀ h (s.txn id)) (.read addr next)
      (.reading seg start idx stop off target))
    (hs : s.step (.word t) = some (s', e)) :
    Modest dead e ∧ Turned place P m₀ h s e s' t (goOn (.read addr next) e) := by
  have hstep := step_cases hs
  have hclient := hc.client
  have hcall := hc.call
  simp only [State.step, hclient, State.word, hcall] at hs
  cases hsv with
  | reading ha hp =>
    obtain ⟨ℓ, hℓ, hnext⟩ := hP.read hp
    obtain rfl := Option.some.inj (ha.symm.trans hℓ)
    rw [if_pos (by simp)] at hs
    split at hs
    · rename_i v segment' hv
      obtain ⟨rfl, rfl⟩ := Prod.mk.inj (Option.some.inj hs)
      have hval := (hi.read hstep (hpl.alive ha)).2
      rw [show view m₀ h (s.txn id) (seg, start) = v from hval.symm,
        ← view_plain (e := .read (s.txn id) (seg, start) v) rfl rfl, ← accesses_read] at hnext
      exact ⟨⟨hpl.alive ha, fun _ => trivial, rfl⟩,
        .of_serving ⟨hclient, State.setCall_call_self ..⟩ rfl rfl (.copied hnext)⟩
    · obtain ⟨rfl, rfl⟩ := Prod.mk.inj (Option.some.inj hs)
      exact ⟨⟨trivial, fun _ => trivial, rfl⟩,
        .of_serving ⟨hclient, State.setCall_call_self ..⟩ rfl rfl .readAborts⟩
  | @copied _ _ _ _ v _ hp =>
    rw [if_neg (by simp)] at hs
    obtain ⟨rfl, rfl⟩ := Prod.mk.inj (Option.some.inj hs)
    rw [← view_plain (e := .readDone (s.txn id) seg start [(0, v)]) rfl rfl] at hp
    exact ⟨⟨trivial, fun _ => trivial, rfl⟩,
      .of_serving ⟨hclient, State.setCall_call_self ..⟩ rfl rfl (.rest hp)⟩

omit [Fintype τ] in
/-- A word of a `tm_write` is added to what the closure was served. -/
theorem turned_write (hP : Sustained place P) {addr seg start idx off : ℕ} {stop v : ℤ}
    {next : Prog C ℤ α} {source : ℕ → ℤ} (hpl : Placed place dead s)
    (hc : InCall s t id (.writing seg start idx stop source off))
    (hsv : Serving place P (accesses (s.txn id) h) (view m₀ h (s.txn id)) (.write addr v next)
      (.writing seg start idx stop source off))
    (hs : s.step (.word t) = some (s', e)) :
    Modest dead e ∧ Turned place P m₀ h s e s' t (goOn (.write addr v next) e) := by
  have hclient := hc.client
  have hcall := hc.call
  simp only [State.step, hclient, State.word, hcall] at hs
  cases hsv with
  | writing ha hp =>
    obtain ⟨ℓ, hℓ, hnext⟩ := hP.write hp
    obtain rfl := Option.some.inj (ha.symm.trans hℓ)
    rw [if_pos (by simp)] at hs
    split at hs
    · obtain ⟨rfl, rfl⟩ := Prod.mk.inj (Option.some.inj hs)
      rw [← view_wrote, ← accesses_wrote] at hnext
      exact ⟨⟨hpl.alive ha, fun _ => trivial, rfl⟩,
        .of_serving ⟨hclient, State.setCall_call_self ..⟩ rfl rfl (.stored hnext)⟩
    · obtain ⟨rfl, rfl⟩ := Prod.mk.inj (Option.some.inj hs)
      exact ⟨⟨trivial, fun _ => trivial, rfl⟩,
        .of_serving ⟨hclient, State.setCall_call_self ..⟩ rfl rfl .writeAborts⟩
  | stored hp =>
    rw [if_neg (by simp)] at hs
    obtain ⟨rfl, rfl⟩ := Prod.mk.inj (Option.some.inj hs)
    rw [← view_plain (e := .writeDone (s.txn id) seg start) rfl rfl] at hp
    exact ⟨⟨trivial, fun _ => trivial, rfl⟩,
      .of_serving ⟨hclient, State.setCall_call_self ..⟩ rfl rfl (.rest hp)⟩

omit [Fintype τ] in
/-- A step of an abort, after which the closure starts again. -/
theorem turned_abort {i j : ℕ} (hc : InCall s t id (.aborting i j))
    (hsv : Serving place P (accesses (s.txn id) h) (view m₀ h (s.txn id)) p (.aborting i j))
    (hs : s.step (.abort t) = some (s', e)) :
    Modest dead e ∧ Turned place P m₀ h s e s' t (goOn p e) := by
  have hclient := hc.client
  have hcall := hc.call
  -- the closure waits for the abort to end
  have hwait : ∀ T ℓ, goOn p (.released T ℓ : Event τ ℤ) = .goes p ∧
      goOn p (.silent : Event τ ℤ) = .goes p ∧
      ∀ last, goOn p (.aborted T last : Event τ ℤ) = .again := by
    intro T ℓ
    cases hsv with
    | readAborts => exact ⟨rfl, rfl, fun _ => rfl⟩
    | writeAborts => exact ⟨rfl, rfl, fun _ => rfl⟩
  simp only [State.step, hclient, hcall, State.abort] at hs
  split at hs
  · split at hs
    · obtain ⟨rfl, rfl⟩ := Prod.mk.inj (Option.some.inj hs)
      rw [(hwait _ _).1]
      exact ⟨⟨trivial, fun _ => trivial, rfl⟩,
        .of_serving ⟨hclient, State.setCall_call_self ..⟩ rfl rfl hsv.aborting⟩
    · obtain ⟨rfl, rfl⟩ := Prod.mk.inj (Option.some.inj hs)
      rw [(hwait (s.txn id) (i, j)).2.1]
      exact ⟨⟨trivial, fun _ => trivial, rfl⟩,
        .of_serving ⟨hclient, State.setCall_call_self ..⟩ rfl rfl hsv.aborting⟩
  · obtain ⟨⟨last, rfl⟩, hout⟩ := leave_outside hclient hs
    rw [(hwait (s.txn id) (i, j)).2.2]
    exact ⟨⟨trivial, fun _ => trivial, rfl⟩, .again rfl hout⟩

/-- **A step of a closure** is modest and is a turn: it begins a call, serves a word, is
refused one, or leaves. -/
theorem InClosure.step (hP : Sustained place P) (hin : InClosure place P m₀ h s t p)
    (hi : Isolated m₀ dead h s) (hpl : Placed place dead s) (ha : callAction s t p = some a)
    (hs : s.step a = some (s', e)) : Modest dead e ∧ Turned place P m₀ h s e s' t (goOn p e) := by
  obtain ⟨id, c, hc, hsv⟩ := hin
  have hcall := hc.call
  rw [callAction] at ha
  cases c with
  | rest =>
    rw [nextStep_rest hcall] at ha
    cases hsv with
    | rest hp => exact turned_call hP hpl hc hp ha hs
  | beginning => cases hsv
  | reading seg start idx stop off target =>
    rw [nextStep_reading hcall] at ha
    obtain rfl := Option.some.inj ha
    have hread : ∃ addr next, p = .read addr next := by
      cases hsv with
      | reading => exact ⟨_, _, rfl⟩
      | copied => exact ⟨_, _, rfl⟩
    obtain ⟨addr, next, rfl⟩ := hread
    exact turned_read hP hi hpl hc hsv hs
  | writing seg start idx stop source off =>
    rw [nextStep_writing hcall] at ha
    obtain rfl := Option.some.inj ha
    have hwrite : ∃ addr v next, p = .write addr v next := by
      cases hsv with
      | writing => exact ⟨_, _, _, rfl⟩
      | stored => exact ⟨_, _, _, rfl⟩
    obtain ⟨addr, v, next, rfl⟩ := hwrite
    exact turned_write hP hpl hc hsv hs
  | aborting i j =>
    rw [nextStep_aborting hcall] at ha
    obtain rfl := Option.some.inj ha
    exact turned_abort hc hsv hs

/-! ## One word

The smallest region on which closures have something to do, for the examples. -/

/-- The only word that closures of a counter use. -/
def counterAt (start : ℕ) (ℓ : Loc) (a : ℕ) : Option Loc := if a = start then some ℓ else none

/-- A region of one word, for two threads. -/
def counterState : State (Fin 2) ℤ where
  region := tmCreate 8 8 (fun _ => initSegment 8 0) fun _ => false
  gate := ⟨initBatcher, fun _ => .outside⟩
  thread := fun _ => ⟨false, .rest⟩

theorem counterState_atRest : counterState.AtRest := ⟨⟨rfl, fun _ => rfl⟩, fun _ => rfl⟩

theorem counterState_placed : Placed (counterAt getVirtStartAddr (0, 0)) ∅ counterState := by
  refine ⟨fun {a ℓ} ha => ?_, fun _ => Set.notMem_empty _⟩
  rw [counterAt] at ha
  split at ha
  · rename_i haddr
    obtain rfl := Option.some.inj ha
    rw [haddr]
    decide +kernel
  · cases ha

end DualStm
