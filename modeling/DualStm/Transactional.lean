import DualStm.AtomicBlocks
import DualStm.Unwinding

/-!
# `transactional` on the transactional memory

The class and the loop of `transactional.hpp`, with constructor, destructor, handler and
unwinding, on the library itself: a call of the library is answered when it has come to its
end there, and the handle is the id of the transaction. A closure copies one word at a time
and throws nothing; any number of threads call `transactional` again and again.

What such threads do is what the callers of `AtomicBlocks` do, step by step, so what holds of
those holds of them. No exception leaves `transactional`, the destructor throws nothing while
another exception is under way, and every call is made with the handle of the transaction that
its thread is in.
-/

namespace DualStm

variable {τ κ ε α : Type}

/-! ## The closure

A closure of `transactional` may take values along, copy buffers of any size, and throw. One
that does none of this is a program over the words, as the other modules have them. -/

namespace Unwinding.Func

/-- The closure as a program. What is thrown is not told. -/
def toProg : Func Unit ε ℤ α → Closure α
  | .ret a => .ret a
  | .throw _ => .fault
  | .save _ next => next.toProg
  | .read source _ next => .read source fun v => (next v).toProg
  | .write source _ target next => .write target source next.toProg
  | .alloc size next => .alloc size fun target => (next target).toProg
  | .free target next => .free target next.toProg

/-- The closure copies words, throws nothing, and modifies nothing if `writes` is not set. -/
def Plain (writes : Bool) : Func Unit ε ℤ α → Prop
  | .ret _ => True
  | .throw _ => False
  | .save _ next => next.Plain writes
  | .read _ size next => size = WORD_SIZE ∧ ∀ v, (next v).Plain writes
  | .write _ size _ next => writes = true ∧ size = WORD_SIZE ∧ next.Plain writes
  | .alloc _ next => writes = true ∧ ∀ target, (next target).Plain writes
  | .free _ next => writes = true ∧ next.Plain writes

end Unwinding.Func

/-! ## The threads

Each thread runs the machine of `transactional`, and the library answers its calls. The handle
of a transaction is its id. -/

/-- A call of `transactional`. The handles are ids. -/
abbrev WordCall (ε α : Type) := Unwinding.State ℕ Unit ε ℤ α

/-- The library and the threads that use it. -/
structure Users (τ κ ε α : Type) where
  /-- the library -/
  state : State τ ℤ
  /-- the call of `transactional` that a thread is in -/
  user : τ → Option (κ × WordCall ε α)

/-- What happened in a step, as the users see it. -/
inductive UserReport (τ κ ε α : Type) where
  /-- a thread called `transactional` -/
  | called (t : τ) (k : κ)
  /-- a step of the library -/
  | library (e : Event τ ℤ)
  /-- a step of the library after which `transactional` returned -/
  | returned (e : Event τ ℤ) (k : κ) (x : α)
  /-- a step of the library after which `transactional` threw -/
  | threw (e : Event τ ℤ) (k : κ) (ex : Unwinding.Exception ε)

/-- The handle that `tm_begin` returns. -/
def Client.handle : Client → Option ℕ
  | .inside id => some id
  | _ => none

/-- What a step of the library answers to the pending call of a closure. A `tm_alloc` of
`State.step` succeeds, so `nomem` is not among the answers; `Unwinding` has the machine with
all of them. -/
def Unwinding.Func.answer : Unwinding.Func Unit ε ℤ α → Event τ ℤ →
    Option (Unwinding.Answer ℕ ℤ)
  | .read _ _ _, .readDone _ _ _ [(0, v)] => some (.read (some v))
  | .read _ _ _, .aborted _ _ => some (.read none)
  | .write _ _ _ _, .writeDone _ _ _ => some (.bool true)
  | .write _ _ _ _, .aborted _ _ => some (.bool false)
  | .alloc _ _, .alloced _ seg => some (.alloc (.success (getVirtAddr seg)))
  | .alloc _ _, .aborted _ _ => some (.alloc .abort)
  | .free _ _, .freed _ _ => some (.bool true)
  | .free _ _, .aborted _ _ => some (.bool false)
  | _, _ => none

/-- What a step of the library answers to the pending call of a thread that is a `client` after
it. -/
def Unwinding.Place.answer (client : Client) : Unwinding.Place ℕ Unit ε ℤ α → Event τ ℤ →
    Option (Unwinding.Answer ℕ ℤ)
  | .constructing, .silent => some (.begun client.handle)
  | .inside _ f, e => f.answer e
  | .destroying _ _, .ended _ _ => some (.bool true)
  | .destroying _ _, .aborted _ _ => some (.bool false)
  | _, _ => none

/-- If it was a `tm_read`, it has copied a word. -/
def Event.copiesWord : Event τ ℤ → Bool
  | .readDone _ _ _ [(0, _)] => true
  | .readDone _ _ _ _ => false
  | _ => true

/-- The library call that a thread has come to: that of its closure, or the `tm_end` of the
destructor. -/
def Unwinding.Place.nextCall (t : τ) : Unwinding.Place ℕ Unit ε ℤ α → Option (Action τ ℤ)
  | .inside _ (.read source size _) => some (.tmRead t source size)
  | .inside _ (.write source size target _) => some (.tmWrite t (fun _ => source) size target)
  | .inside _ (.alloc size _) => some (.tmAlloc t size)
  | .inside _ (.free target _) => some (.tmFree t target)
  | .destroying _ _ => some (.tmEnd t)
  | _ => none

/-- **The next step of a thread**: into its transaction, or in it. -/
def userAction (s : State τ ℤ) (t : τ) (isRo : Bool) (p : Unwinding.Place ℕ Unit ε ℤ α) :
    Option (Action τ ℤ) :=
  match p with
  | .constructing => some (openAction s t isRo)
  | p => nextStep s t (p.nextCall t)

variable [DecidableEq τ]

namespace Users

/-- Thread `t` is elsewhere, and the others are where they were. -/
def setUser (u : Users τ κ ε α) (t : τ) (w : Option (κ × WordCall ε α)) : Users τ κ ε α :=
  { u with user := Function.update u.user t w }

/-- Where a thread is after an answer: in the call still, or between two of them. -/
def resume (k : κ) (s : WordCall ε α) : Option (κ × WordCall ε α) :=
  match s.place with
  | .done _ => none
  | _ => some (k, s)

/-- What is reported of a step of the library after which the machine of its thread is in `s`. -/
def report (k : κ) (e : Event τ ℤ) (s : WordCall ε α) : UserReport τ κ ε α :=
  match s.place with
  | .done (.returned x) => .returned e k x
  | .done (.threw ex) => .threw e k ex
  | _ => .library e

/-- What a step of the library, to the state `s'`, makes of a call of `transactional`:
nothing as long as the library has not answered, and then what the answer makes of it. -/
def after (assertMode : Bool) (tx : κ → Unwinding.Mode × Unwinding.Func Unit ε ℤ α)
    (u : Users τ κ ε α) (t : τ) (k : κ) (s : WordCall ε α) (s' : State τ ℤ) (e : Event τ ℤ) :
    Option (Users τ κ ε α × UserReport τ κ ε α) :=
  match s.place.answer (s'.client t) e with
  | none => some ({ u with state := s' }, .library e)
  | some r => (Unwinding.step assertMode (tx k).1 (fun _ => (tx k).2) s r).map fun (s₁, _) =>
    ({ u.setUser t (resume k s₁) with state := s' }, report k e s₁)

/-- The transition function. The transactions of the program are `tx`: the mode and the
closure that `transactional` is called with. -/
def step (assertMode : Bool) (tx : κ → Unwinding.Mode × Unwinding.Func Unit ε ℤ α)
    (u : Users τ κ ε α) : CallerAction τ κ → Option (Users τ κ ε α × UserReport τ κ ε α)
  | .call t k =>
    match u.user t with
    | none => some (u.setUser t (some (k, Unwinding.call ())), .called t k)
    | some _ => none
  | .go t =>
    match u.user t with
    | none => none
    | some (k, s) => (userAction u.state t (tx k).1.isRo s.place).bind fun a =>
      (u.state.step a).bind fun (s', e) =>
        if e.copiesWord then u.after assertMode tx t k s s' e else none

/-- The users before the first call, when nobody has called anything yet. -/
def start (s : State τ ℤ) : Users τ κ ε α := ⟨s, fun _ => none⟩

end Users

/-! ## As callers

A user is a caller whose closure is what is left of its own. A user between two operations, or
in its destructor, has the same place in the library as the caller. -/

/-- What is left of the closure at a place of the machine. -/
def Unwinding.Place.rest : Unwinding.Place ℕ Unit ε ℤ α → Option (Closure α)
  | .inside _ f => some f.toProg
  | .destroying _ (.returned a) => some (.ret a)
  | _ => none

/-- A user as a caller. -/
def callerOf : Option (κ × WordCall ε α) → Caller κ α
  | none => ⟨none, none⟩
  | some (k, s) => ⟨some k, s.place.rest⟩

/-- All users as callers. -/
def Users.callers (u : Users τ κ ε α) : Callers τ κ α := ⟨u.state, fun t => callerOf (u.user t)⟩

/-- What the callers see of a step of the users. -/
def UserReport.seen : UserReport τ κ ε α → CallerReport τ κ α
  | .called t k => .called t k
  | .library e => .library e
  | .returned e k x => .returned e k x
  | .threw e _ _ => .library e

/-- The transactions of the program, as the callers have them. -/
def progOf (tx : κ → Unwinding.Mode × Unwinding.Func Unit ε ℤ α) (k : κ) : Bool × Closure α :=
  ((tx k).1.isRo, (tx k).2.toProg)

section

variable {assertMode isRo : Bool} {tx : κ → Unwinding.Mode × Unwinding.Func Unit ε ℤ α}
  {f : Unwinding.Func Unit ε ℤ α} {s₀ s s' : State τ ℤ} {a : Action τ ℤ} {e : Event τ ℤ} {t : τ}
  {x : ℕ} {c : Client} {p : Unwinding.Place ℕ Unit ε ℤ α}

/-- Where a thread can be in a transaction of the mode, as a `client` of the gate. -/
inductive SoundPlace (isRo : Bool) (client : Client) : Unwinding.Place ℕ Unit ε ℤ α → Prop where
  | constructing : SoundPlace isRo client .constructing
  | inside {x : ℕ} {f : Unwinding.Func Unit ε ℤ α} (hx : client = .inside x)
      (hf : f.Plain (!isRo)) (hcalls : f.calls true = true) :
    SoundPlace isRo client (.inside ⟨x, false, isRo⟩ f)
  | destroying {x : ℕ} {a : α} (hx : client = .inside x) :
    SoundPlace isRo client (.destroying ⟨x, false, isRo⟩ (.returned a))

omit [DecidableEq τ] in
/-- The closure comes to its next call, or to its end. -/
theorem soundPlace_reach (assertMode : Bool) (hx : c = .inside x) (hf : f.Plain (!isRo)) :
    SoundPlace isRo c (Unwinding.reach assertMode ⟨x, false, isRo⟩ f ()).place ∧
      (Unwinding.reach assertMode ⟨x, false, isRo⟩ f ()).place.rest = some f.toProg := by
  -- a closure that modifies the memory may do so
  have hmodifies : ∀ f : Unwinding.Func Unit ε ℤ α, f.Plain (!isRo) → f.modifies = true →
      isRo = false →
      SoundPlace isRo c (Unwinding.reach assertMode ⟨x, false, isRo⟩ f ()).place ∧
        (Unwinding.reach assertMode ⟨x, false, isRo⟩ f ()).place.rest = some f.toProg := by
    intro f hf hmod hro
    rw [Unwinding.reach_of_modifies hmod, if_neg (by simp [hro])]
    exact ⟨.inside hx hf (Unwinding.calls_of_modifies hmod), rfl⟩
  induction f with
  | ret a => exact ⟨.destroying hx, rfl⟩
  | throw ex => exact hf.elim
  | save _ next ih => exact ih hf
  | read source size next => exact ⟨.inside hx hf rfl, rfl⟩
  | write source size target next => exact hmodifies _ hf rfl (by simpa using hf.1)
  | alloc size next => exact hmodifies _ hf rfl (by simpa using hf.1)
  | free target next => exact hmodifies _ hf rfl (by simpa using hf.1)

omit [DecidableEq τ] in
/-- **A thread in its closure** calls what the closure calls. -/
theorem userAction_inside {tr : Unwinding.Transaction ℕ} (hf : f.Plain (!isRo))
    (hcalls : f.calls true = true) :
    userAction s t isRo (.inside tr f) = callAction s t f.toProg := by
  apply congrArg (nextStep s t)
  cases f with
  | ret a => cases hcalls
  | throw ex => cases hcalls
  | save c next => cases hcalls
  | read source size next =>
    obtain ⟨rfl, -⟩ := hf
    rfl
  | write source size target next =>
    obtain ⟨-, rfl, -⟩ := hf
    rfl
  | alloc size next => rfl
  | free target next => rfl

omit [DecidableEq τ] in
/-- **A thread in the destructor** ends its transaction, as its closure has ended. -/
theorem userAction_destroying {tr : Unwinding.Transaction ℕ} {x : α} :
    userAction s t isRo (.destroying tr (.returned x) : Unwinding.Place ℕ Unit ε ℤ α) =
      callAction s t (.ret x : Closure α) := rfl

omit [DecidableEq τ] in
theorem copiesWord_readDone {T : Txn} {seg start : ℕ} {target : List (ℕ × ℤ)}
    (hw : (Event.readDone T seg start target : Event τ ℤ).copiesWord = true) :
    ∃ v, target = [(0, v)] := by
  rw [Event.copiesWord.eq_def] at hw
  split at hw
  · rename_i heq
    cases heq
    exact ⟨_, rfl⟩
  · cases hw
  · rename_i hne
    exact absurd rfl (hne _ _ _ _)

omit [DecidableEq τ] in
/-- What is not an answer changes nothing. -/
theorem goOn_of_answer_none (hcalls : f.calls true = true) (hw : e.copiesWord = true)
    (hr : f.answer e = none) : goOn f.toProg e = .goes f.toProg ∧ ∀ T b, e ≠ .aborted T b := by
  cases f with
  | ret a => cases hcalls
  | throw ex => cases hcalls
  | save c next => cases hcalls
  | read source size next =>
    cases e with
    | readDone T seg start target =>
      obtain ⟨v, rfl⟩ := copiesWord_readDone hw
      cases hr
    | aborted T b => cases hr
    | _ => exact ⟨rfl, by rintro _ _ ⟨⟩⟩
  | write source size target next =>
    cases e with
    | writeDone T seg start => cases hr
    | aborted T b => cases hr
    | _ => exact ⟨rfl, by rintro _ _ ⟨⟩⟩
  | alloc size next =>
    cases e with
    | alloced T seg => cases hr
    | aborted T b => cases hr
    | _ => exact ⟨rfl, by rintro _ _ ⟨⟩⟩
  | free target next =>
    cases e with
    | freed T seg => cases hr
    | aborted T b => cases hr
    | _ => exact ⟨rfl, by rintro _ _ ⟨⟩⟩

/-- What an answer does to a thread in its closure. -/
inductive Answered (assertMode isRo : Bool) (x : ℕ) (e : Event τ ℤ) :
    ClosureOutcome Unit α → WordCall ε α → Prop where
  /-- the closure goes on -/
  | goes {f : Unwinding.Func Unit ε ℤ α} (hf : f.Plain (!isRo)) (he : e.left? = none) :
    Answered assertMode isRo x e (.goes f.toProg) (Unwinding.reach assertMode ⟨x, false, isRo⟩ f ())
  /-- the transaction is aborted -/
  | again : Answered assertMode isRo x e .again ⟨(), .constructing⟩

omit [DecidableEq τ] in
theorem answered {mode : Unwinding.Mode} {func : Unit → Unwinding.Func Unit ε ℤ α}
    {s₁ : WordCall ε α} {r : Unwinding.Answer ℕ ℤ} {k : Unwinding.LibCall ℕ ℤ}
    (hf : f.Plain (!isRo)) (hw : e.copiesWord = true) (hr : f.answer e = some r)
    (hs : Unwinding.step assertMode mode func ⟨(), .inside ⟨x, false, isRo⟩ f⟩ r = some (s₁, k)) :
    Answered assertMode isRo x e (goOn f.toProg e) s₁ := by
  cases f with
  | read source size next =>
    cases e with
    | readDone T seg start target =>
      obtain ⟨v, rfl⟩ := copiesWord_readDone hw
      cases hr
      cases hs
      exact .goes (hf.2 v) rfl
    | aborted T b =>
      cases hr
      cases hs
      exact .again
    | _ => cases hr
  | write source size target next =>
    cases e with
    | writeDone T seg start =>
      cases hr
      cases hs
      exact .goes hf.2.2 rfl
    | aborted T b =>
      cases hr
      cases hs
      exact .again
    | _ => cases hr
  | alloc size next =>
    cases e with
    | alloced T seg =>
      cases hr
      cases hs
      exact .goes (hf.2 _) rfl
    | aborted T b =>
      cases hr
      cases hs
      exact .again
    | _ => cases hr
  | free target next =>
    cases e with
    | freed T seg =>
      cases hr
      cases hs
      exact .goes hf.2 rfl
    | aborted T b =>
      cases hr
      cases hs
      exact .again
    | _ => cases hr
  | _ => cases e <;> cases hr

variable [Fintype τ]

/-- A thread stays in its transaction as long as it does not leave it. -/
theorem inside_of_step (hs : s.step a = some (s', e)) (hg : GateInv s.gate)
    (hx : s.client t = .inside x) (he : e.left? = none) : s'.client t = .inside x := by
  obtain ⟨c, hc⟩ : ∃ c, s.call t = c := ⟨_, rfl⟩
  rcases (step_cases hs).thread_cases hg ⟨hx, hc⟩ with ⟨hin, -⟩ | ⟨c, -, hin, -⟩ | ⟨hleft, -⟩
  · exact hin.client
  · exact hin.client
  · cases hleft <;> cases he

/-- A transaction is ended between two calls of its thread. -/
theorem rest_of_ended {T : Txn} {b : Bool} (hs : s.step a = some (s', .ended T b))
    (hg : GateInv s.gate) : s.call a.thread = .rest := by
  obtain ⟨u, id, hu, hr, rfl⟩ : ∃ u id, s.client u = .inside id ∧ s.call u = .rest ∧
      T = s.txn id := by
    have hstep := step_cases hs
    generalize heq : (Event.ended T b : Event τ ℤ) = e' at hstep
    cases hstep with
    | @left u id fin hc hr hn =>
      cases fin with
      | true =>
        obtain ⟨rfl, -⟩ := Event.ended.inj heq
        exact ⟨u, id, hc, hr, rfl⟩
      | false => cases heq
    | @closed u id fin r hc hr hn hcommit =>
      cases fin with
      | true =>
        obtain ⟨rfl, -⟩ := Event.ended.inj heq
        exact ⟨u, id, hc, hr, rfl⟩
      | false => cases heq
    | _ => cases heq
  rcases ((step_movesAlone hs).txn rfl).2 with hin | hgen
  · rw [hg.id_inj hin hu]
    exact hr
  · exact absurd hgen (hg.id_lt hu).ne

/-- A thread in its closure does not end its transaction. -/
theorem left_none_of_answer_none (hg : GateInv s.gate) (hcalls : f.calls true = true)
    (ha : callAction s t f.toProg = some a) (hs : s.step a = some (s', e))
    (hw : e.copiesWord = true) (hr : f.answer e = none) : e.left? = none := by
  cases e with
  | aborted T b => exact absurd rfl ((goOn_of_answer_none hcalls hw hr).2 T b)
  | ended T b =>
    have hrest : s.call t = .rest := by
      rw [← callAction_thread ha]
      exact rest_of_ended hs hg
    rw [callAction, nextStep_rest hrest] at ha
    cases f with
    | read source size next =>
      obtain rfl := Option.some.inj ha
      simp only [State.step] at hs
      split at hs <;> cases hs
    | write source size target next =>
      obtain rfl := Option.some.inj ha
      simp only [State.step] at hs
      split at hs <;> cases hs
    | alloc size next =>
      obtain rfl := Option.some.inj ha
      simp only [State.step] at hs
      split at hs <;> cases hs
    | free target next =>
      obtain rfl := Option.some.inj ha
      simp only [State.step] at hs
      split at hs
      · split at hs
        · split at hs <;> cases hs
        · cases hs
      · cases hs
    | _ => cases hcalls
  | _ => rfl

/-! ## Step by step

A step of a user is a step of the caller that it is. There is one lemma for each place of the
machine: before the constructor has answered, inside the closure, and in the destructor. -/

/-- The threads are where they can be. -/
structure Users.Sound (tx : κ → Unwinding.Mode × Unwinding.Func Unit ε ℤ α) (s₀ : State τ ℤ)
    (h : List (CallerReport τ κ α)) (u : Users τ κ ε α) : Prop where
  /-- the library has run -/
  run : Run State.step anyStep s₀ (txEvents h) u.state
  /-- the threads -/
  place : ∀ t k s, u.user t = some (k, s) →
    SoundPlace (tx k).1.isRo (u.state.client t) s.place

namespace Users.Sound

variable {u u' : Users τ κ ε α} {h : List (CallerReport τ κ α)} {r : UserReport τ κ ε α}
  {w : Option (κ × WordCall ε α)} {k : κ} {q : WordCall ε α}

/-- A step of the library, for a thread. -/
theorem library (hi : Sound tx s₀ h u) (hrest : s₀.AtRest)
    (hs : u.state.step a = some (s', e)) (ha : a.thread = t)
    (hw : ∀ k q, w = some (k, q) → SoundPlace (tx k).1.isRo (s'.client t) q.place)
    (hr : r.seen.event? = some e) :
    Sound tx s₀ (r.seen :: h) { u.setUser t w with state := s' } := by
  have hm : MovesAlone u.state t e s' := ha ▸ step_movesAlone hs
  have hg := (Books.run hrest hi.run).gate
  constructor
  · rw [txEvents_cons hr]
    exact hi.run.next hs trivial
  · intro v k q hv
    have hv : Function.update u.user t w v = some (k, q) := hv
    obtain rfl | hvt := eq_or_ne v t
    · rw [Function.update_self] at hv
      exact hw k q hv
    · rw [Function.update_of_ne hvt] at hv
      have hold := hi.place v k q hv
      have hstay : ∀ {x}, u.state.client v = .inside x → s'.client v = .inside x :=
        fun hx => (hm.inCall (step_cases hs) hg hvt ⟨hx, rfl⟩).1.client
      revert hold
      generalize q.place = p
      intro hold
      cases hold with
      | constructing => exact .constructing
      | inside hx hf hcalls => exact .inside (hstay hx) hf hcalls
      | destroying hx => exact .destroying (hstay hx)

omit [Fintype τ] in
theorem callers_setUser : ({ u.setUser t w with state := s' } : Users τ κ ε α).callers =
    { u.callers.setCaller t (callerOf w) with state := s' } := by
  have hcaller : (fun v => callerOf (Function.update u.user t w v)) =
      Function.update (fun v => callerOf (u.user v)) t (callerOf w) := by
    funext v
    obtain rfl | hvt := eq_or_ne v t
    · rw [Function.update_self, Function.update_self]
    · rw [Function.update_of_ne hvt, Function.update_of_ne hvt]
  exact congrArg (Callers.mk s') hcaller

/-- What a caller does, and where the thread is then. -/
structure Follows (tx : κ → Unwinding.Mode × Unwinding.Func Unit ε ℤ α) (s₀ : State τ ℤ)
    (h : List (CallerReport τ κ α)) (u : Users τ κ ε α) (action : CallerAction τ κ)
    (u' : Users τ κ ε α) (r : UserReport τ κ ε α) : Prop where
  /-- the caller does the same -/
  callers : u.callers.step (progOf tx) action = some (u'.callers, r.seen)
  /-- nothing is thrown -/
  quiet : ∀ e k ex, r ≠ .threw e k ex
  /-- the threads are where they can be -/
  sound : Sound tx s₀ (r.seen :: h) u'

/-- A thread is still in its call of `transactional`. -/
theorem follows (hi : Sound tx s₀ h u) (hrest : s₀.AtRest)
    (hs : u.state.step a = some (s', e)) (ha : a.thread = t)
    (hq : SoundPlace (tx k).1.isRo (s'.client t) q.place)
    (hstep : u.callers.step (progOf tx) (.go t) =
      some ({ u.callers.setCaller t ⟨some k, q.place.rest⟩ with state := s' }, .library e)) :
    Follows tx s₀ h u (.go t) { u.setUser t (some (k, q)) with state := s' } (.library e) := by
  refine ⟨?_, by rintro _ _ _ ⟨⟩, hi.library (r := .library e) hrest hs ha ?_ rfl⟩
  · rw [callers_setUser]
    exact hstep
  · intro k' q' heq
    obtain ⟨rfl, rfl⟩ := Prod.mk.inj (Option.some.inj heq)
    exact hq

omit [Fintype τ] in
/-- A step that answers nothing leaves the users as they were but for the library. -/
theorem same_of_none (hu : u.user t = some (k, q)) : ({ u with state := s' } : Users τ κ ε α) =
    { u.setUser t (some (k, q)) with state := s' } := by
  rw [Users.setUser, ← hu, Function.update_eq_self]

omit [DecidableEq τ] [Fintype τ] in
/-- An answer after which the thread is still in its call. -/
theorem resume_of_sound {isRo : Bool} {c : Client} (hq : SoundPlace isRo c q.place)
    (e : Event τ ℤ) : Users.resume k q = some (k, q) ∧
      (Users.report k e q : UserReport τ κ ε α) = .library e := by
  rw [Users.resume, Users.report]
  revert hq
  generalize q.place = p
  intro hq
  cases hq <;> exact ⟨rfl, rfl⟩

omit [DecidableEq τ] [Fintype τ] in
theorem answer_constructing {client : Client} (he : e ≠ .silent) :
    Unwinding.Place.answer client (.constructing : Unwinding.Place ℕ Unit ε ℤ α) e = none := by
  cases e with
  | silent => exact absurd rfl he
  | _ => rfl

omit [Fintype τ] in
theorem callers_opened (hu : u.callers.caller t = ⟨some k, none⟩)
    (hs : u.state.step (openAction u.state t (tx k).1.isRo) = some (s', e)) :
    u.callers.step (progOf tx) (.go t) = some ({ u.callers.setCaller t
      ⟨some k, if e = .silent then some (tx k).2.toProg else none⟩ with state := s' },
        .library e) := by
  have hs : u.callers.state.step (openAction u.callers.state t (progOf tx k).1) = some (s', e) := hs
  rw [Callers.step, hu]
  dsimp only
  rw [hs]
  rfl

omit [Fintype τ] in
theorem callers_called (tx : κ → Unwinding.Mode × Unwinding.Func Unit ε ℤ α) {c : Closure α}
    (hu : u.callers.caller t = ⟨some k, some c⟩)
    (ha : callAction u.state t c = some a) (hs : u.state.step a = some (s', e)) :
    u.callers.step (progOf tx) (.go t) = some ({ u.callers.setCaller t
      (Callers.resume k (goOn c e)) with state := s' }, Callers.report k e (goOn c e)) := by
  have ha : callAction u.callers.state t c = some a := ha
  have hs : u.callers.state.step a = some (s', e) := hs
  rw [Callers.step, hu]
  dsimp only
  rw [ha, Option.bind_some, hs]
  rfl

omit [DecidableEq τ] [Fintype τ] in
theorem caller_of_user (hu : u.user t = some (k, q)) :
    u.callers.caller t = ⟨some k, q.place.rest⟩ := by
  rw [show u.callers.caller t = callerOf (u.user t) from rfl, hu]
  rfl

omit [Fintype τ] in
/-- Without an answer only the library has moved. -/
theorem after_none (hr : q.place.answer (s'.client t) e = none) (hu : u.user t = some (k, q))
    (hout : u.after assertMode tx t k q s' e = some (u', r)) :
    u' = { u.setUser t (some (k, q)) with state := s' } ∧ r = .library e := by
  rw [Users.after, hr] at hout
  obtain ⟨rfl, rfl⟩ := Prod.mk.inj (Option.some.inj hout)
  exact ⟨same_of_none hu, rfl⟩

omit [Fintype τ] in
/-- **A call of `transactional`** is one of a caller. -/
theorem of_call (hi : Sound tx s₀ h u) (hs : u.step assertMode tx (.call t k) = some (u', r)) :
    Follows tx s₀ h u (.call t k) u' r := by
  rw [Users.step] at hs
  cases hu : u.user t with
  | some w =>
    rw [hu] at hs
    cases hs
  | none =>
    rw [hu] at hs
    obtain ⟨rfl, rfl⟩ := Prod.mk.inj (Option.some.inj hs)
    have hjob : (u.callers.caller t).job = none := by
      rw [show u.callers.caller t = callerOf (u.user t) from rfl, hu]
      rfl
    have hset : (u.setUser t (some (k, Unwinding.call ()))).callers =
        u.callers.setCaller t ⟨some k, none⟩ := callers_setUser
    refine ⟨?_, by rintro _ _ _ ⟨⟩, hi.run, ?_⟩
    · rw [Callers.step, hjob, hset]
      rfl
    · intro v k' q hv
      have hv : Function.update u.user t (some (k, Unwinding.call ())) v = some (k', q) := hv
      obtain rfl | hvt := eq_or_ne v t
      · rw [Function.update_self] at hv
        obtain ⟨rfl, rfl⟩ := Prod.mk.inj (Option.some.inj hv)
        exact .constructing
      · rw [Function.update_of_ne hvt] at hv
        exact hi.place v k' q hv

/-- **A step of the constructor** is one of a caller into its transaction; when `tm_begin`
returns, the closure comes to its first call. -/
theorem of_constructing (hplain : (tx k).2.Plain (!(tx k).1.isRo)) (hi : Sound tx s₀ h u)
    (hrest : s₀.AtRest) (hu : u.user t = some (k, ⟨(), .constructing⟩))
    (hstep : u.state.step (openAction u.state t (tx k).1.isRo) = some (s', e))
    (hout : u.after assertMode tx t k ⟨(), .constructing⟩ s' e = some (u', r)) :
    Follows tx s₀ h u (.go t) u' r := by
  have hcallers := callers_opened (caller_of_user hu) hstep
  by_cases hsilent : e = .silent
  · subst hsilent
    obtain ⟨x, hx⟩ := inside_of_opened hstep
    rw [Users.after, hx] at hout
    obtain ⟨rfl, rfl⟩ := Prod.mk.inj (Option.some.inj hout)
    obtain ⟨hsound, hleft⟩ := soundPlace_reach assertMode hx hplain
    obtain ⟨hresume, hreport⟩ := resume_of_sound (k := k) hsound .silent
    rw [hresume, hreport]
    apply hi.follows hrest hstep openAction_thread hsound
    rw [hleft, hcallers, if_pos rfl]
  · obtain ⟨rfl, rfl⟩ := after_none (answer_constructing hsilent) hu hout
    apply hi.follows hrest hstep openAction_thread .constructing
    rw [hcallers, if_neg hsilent]
    rfl

/-- **A step of the closure** is one of a caller in its closure; an answer takes it to its
next call, or the handler to the constructor again. -/
theorem of_inside {x : ℕ} (hi : Sound tx s₀ h u) (hrest : s₀.AtRest)
    (hu : u.user t = some (k, ⟨(), .inside ⟨x, false, (tx k).1.isRo⟩ f⟩))
    (hx : u.state.client t = .inside x) (hf : f.Plain (!(tx k).1.isRo))
    (hcalls : f.calls true = true) (ha : callAction u.state t f.toProg = some a)
    (hstep : u.state.step a = some (s', e)) (hw : e.copiesWord = true)
    (hout : u.after assertMode tx t k ⟨(), .inside ⟨x, false, (tx k).1.isRo⟩ f⟩ s' e =
      some (u', r)) : Follows tx s₀ h u (.go t) u' r := by
  have hg := (Books.run hrest hi.run).gate
  have hcallers := callers_called tx (caller_of_user hu) ha hstep
  cases hr : f.answer e with
  | none =>
    have hnone : Unwinding.Place.answer (s'.client t)
        (.inside ⟨x, false, (tx k).1.isRo⟩ f) e = none := hr
    obtain ⟨rfl, rfl⟩ := after_none hnone hu hout
    have hstay := inside_of_step hstep hg hx (left_none_of_answer_none hg hcalls ha hstep hw hr)
    rw [(goOn_of_answer_none hcalls hw hr).1] at hcallers
    exact hi.follows hrest hstep (callAction_thread ha) (.inside hstay hf hcalls) hcallers
  | some ans =>
    rw [Users.after, show Unwinding.Place.answer (s'.client t) (.inside _ f) e = some ans
      from hr] at hout
    obtain ⟨⟨q₁, c⟩, hq₁, heq⟩ := Option.map_eq_some_iff.mp hout
    obtain ⟨rfl, rfl⟩ := Prod.mk.inj heq
    have hans := answered hf hw hr hq₁
    generalize goOn f.toProg e = o at hans hcallers
    cases hans with
    | goes hf he =>
      obtain ⟨hsound, hleft⟩ := soundPlace_reach assertMode (inside_of_step hstep hg hx he) hf
      obtain ⟨hresume, hreport⟩ := resume_of_sound (k := k) hsound e
      rw [hresume, hreport]
      apply hi.follows hrest hstep (callAction_thread ha) hsound
      rw [hleft]
      exact hcallers
    | again => exact hi.follows hrest hstep (callAction_thread ha) .constructing hcallers

/-- **A step of the destructor** is one of a caller at the end of its closure: its `tm_end`
commits, and `transactional` returns. -/
theorem of_destroying {x : ℕ} {v : α} (hi : Sound tx s₀ h u) (hrest : s₀.AtRest)
    (hu : u.user t = some (k, ⟨(), .destroying ⟨x, false, (tx k).1.isRo⟩ (.returned v)⟩))
    (hx : u.state.client t = .inside x)
    (ha : callAction u.state t (.ret v : Closure α) = some a)
    (hstep : u.state.step a = some (s', e))
    (hout : u.after assertMode tx t k
      ⟨(), .destroying ⟨x, false, (tx k).1.isRo⟩ (.returned v)⟩ s' e = some (u', r)) :
    Follows tx s₀ h u (.go t) u' r := by
  have hg := (Books.run hrest hi.run).gate
  have hcallers := callers_called tx (caller_of_user hu) ha hstep
  cases e with
  | ended T b =>
    obtain ⟨rfl, rfl⟩ := Prod.mk.inj (Option.some.inj hout)
    refine ⟨?_, by rintro _ _ _ ⟨⟩, hi.library (r := .returned (.ended T b) k v) hrest hstep
      (callAction_thread ha) (by rintro _ _ ⟨⟩) rfl⟩
    rw [callers_setUser]
    exact hcallers
  | aborted T b =>
    obtain ⟨rfl, rfl⟩ := Prod.mk.inj (Option.some.inj hout)
    exact hi.follows hrest hstep (callAction_thread ha) .constructing hcallers
  | _ =>
    obtain ⟨rfl, rfl⟩ := after_none rfl hu hout
    exact hi.follows hrest hstep (callAction_thread ha)
      (.destroying (inside_of_step hstep hg hx rfl)) hcallers

/-- **A step of a thread** is one of a caller, wherever it is. -/
theorem step (hplain : ∀ k, (tx k).2.Plain (!(tx k).1.isRo)) (hi : Sound tx s₀ h u)
    (hrest : s₀.AtRest) {action : CallerAction τ κ}
    (hs : u.step assertMode tx action = some (u', r)) : Follows tx s₀ h u action u' r := by
  cases action with
  | call t k => exact hi.of_call hs
  | go t =>
    rw [Users.step] at hs
    cases hu : u.user t with
    | none =>
      rw [hu] at hs
      cases hs
    | some w =>
      obtain ⟨k, q⟩ := w
      rw [hu] at hs
      obtain ⟨a, ha, hs⟩ := Option.bind_eq_some_iff.mp hs
      obtain ⟨⟨s', e⟩, hstep, hout⟩ := Option.bind_eq_some_iff.mp hs
      dsimp only at hout
      split at hout
      · rename_i hw
        have hsound := hi.place t k q hu
        obtain ⟨⟨⟩, p⟩ := q
        cases hsound with
        | constructing =>
          obtain rfl := Option.some.inj ha
          exact hi.of_constructing (hplain k) hrest hu hstep hout
        | inside hx hf hcalls =>
          rw [userAction_inside hf hcalls] at ha
          exact hi.of_inside hrest hu hx hf hcalls ha hstep hw hout
        | destroying hx =>
          rw [userAction_destroying] at ha
          exact hi.of_destroying hrest hu hx ha hstep hout
      · cases hout

/-- **A run of the threads** is one of callers. -/
theorem of_run (hplain : ∀ k, (tx k).2.Plain (!(tx k).1.isRo)) (hrest : s₀.AtRest)
    {h : List (UserReport τ κ ε α)}
    (hr : Run (Users.step assertMode tx) anyStep (Users.start s₀) h u) :
    Run (Callers.step (progOf tx)) anyStep ⟨s₀, fun _ => ⟨none, none⟩⟩ (h.map UserReport.seen)
        u.callers ∧
      (∀ e k ex, .threw e k ex ∉ h) ∧ Sound tx s₀ (h.map UserReport.seen) u := by
  induction hr with
  | start =>
    refine ⟨.start, ?_, .start, ?_⟩
    · intro e k ex hmem
      cases hmem
    · intro t k q ht
      cases ht
  | next _ hs _ ih =>
    obtain ⟨hrun, hquiet, hi⟩ := ih
    obtain ⟨hcallers, hnew, hsound⟩ := hi.step hplain hrest hs
    refine ⟨hrun.next hcallers trivial, ?_, hsound⟩
    intro e k ex hmem
    rcases List.mem_cons.mp hmem with heq | hmem
    · exact hnew e k ex heq.symm
    · exact hquiet e k ex hmem

end Users.Sound

/-- **What the threads do is what callers do.** Let the closures copy words and throw nothing.
Then every run of threads that call `transactional` is, step by step, a run of the callers of
`AtomicBlocks`; no exception leaves `transactional`, and no destructor throws during the
unwinding; and every call of the library is made with the handle of the transaction that the
thread is in, which is of the mode asked for and has not been aborted. -/
theorem transactional_refines (hplain : ∀ k, (tx k).2.Plain (!(tx k).1.isRo))
    (hrest : s₀.AtRest) {h : List (UserReport τ κ ε α)} {u : Users τ κ ε α}
    (hr : Run (Users.step assertMode tx) anyStep (Users.start s₀) h u) :
    Run (Callers.step (progOf tx)) anyStep ⟨s₀, fun _ => ⟨none, none⟩⟩ (h.map UserReport.seen)
        u.callers ∧
      (∀ e k ex, .threw e k ex ∉ h) ∧
      ∀ t k q, u.user t = some (k, q) → q.place ≠ .terminated ∧
        ∀ tr, ((∃ f, q.place = .inside tr f) ∨ ∃ ex, q.place = .destroying tr ex) →
          u.state.client t = .inside tr.tx ∧ tr.isRo = (tx k).1.isRo ∧ tr.aborted = false := by
  obtain ⟨hrun, hquiet, hsound⟩ := Users.Sound.of_run hplain hrest hr
  refine ⟨hrun, hquiet, ?_⟩
  intro t k q hu
  have hplace := hsound.place t k q hu
  revert hplace
  generalize q.place = p
  intro hplace
  cases hplace with
  | constructing => exact ⟨by simp, by rintro tr (⟨f, ⟨⟩⟩ | ⟨ex, ⟨⟩⟩)⟩
  | inside hx hf hcalls =>
    refine ⟨by simp, ?_⟩
    rintro tr (⟨f, ⟨⟩⟩ | ⟨ex, ⟨⟩⟩)
    exact ⟨hx, rfl, rfl⟩
  | destroying hx =>
    refine ⟨by simp, ?_⟩
    rintro tr (⟨f, ⟨⟩⟩ | ⟨ex, ⟨⟩⟩)
    exact ⟨hx, rfl, rfl⟩

/-- **Closures are atomic blocks.** In every run of threads that call `transactional` with
closures that keep `J` and write what they read, the calls that returned in epochs that are
over have an order, which respects real time and in which the closures, run alone one after
the other, return what the calls have returned and leave the committed memory; and that
memory has `J`. -/
theorem closures_atomic {place : ℕ → Option Loc} {J : (Loc → ℤ) → Prop}
    (hplain : ∀ k, (tx k).2.Plain (!(tx k).1.isRo)) (hsane : ∀ k, (tx k).2.toProg.Sane place J)
    (hrest : s₀.AtRest) (hset : s₀.region.Settled ∅) (hplaced : Placed place ∅ s₀)
    (hJ₀ : J s₀.committed) {h : List (UserReport τ κ ε α)} {u : Users τ κ ε α}
    (hr : Run (Users.step assertMode tx) anyStep (Users.start s₀) h u) :
    J u.state.committed ∧ ∃ order : List (Commit κ α),
      order.Perm ((commits (h.map UserReport.seen)).filter fun b => b.txn.epoch < u.state.epoch) ∧
      Respects (Precedes (txEvents (h.map UserReport.seen))) (order.map Commit.txn) ∧
      Prog.InSequence (Memory.ofPlaces place) ()
        (order.map fun b => ((tx b.job).2.toProg, b.value)) s₀.committed u.state.committed := by
  obtain ⟨hrun, -, -⟩ := Users.Sound.of_run hplain hrest hr
  exact Callers.atomic ⟨hrest, hset, hplaced, fun _ => rfl⟩ hsane hJ₀ hrun

end

/-- Add an even number to a counter and return what it was, or look at it. -/
def evenTx : Option ℕ → Unwinding.Mode × Unwinding.Func Unit Empty ℤ ℤ
  | none => (.readOnly, .read getVirtStartAddr WORD_SIZE .ret)
  | some k => (.readWrite, .read getVirtStartAddr WORD_SIZE fun v =>
    .write (v + 2 * k) WORD_SIZE getVirtStartAddr (.ret v))

theorem evenTx_plain (k : Option ℕ) : (evenTx k).2.Plain (!(evenTx k).1.isRo) := by
  cases k with
  | none => exact ⟨rfl, fun _ => trivial⟩
  | some k => exact ⟨rfl, fun _ => ⟨rfl, rfl, trivial⟩⟩

theorem evenTx_sane (k : Option ℕ) :
    (evenTx k).2.toProg.Sane (counterAt getVirtStartAddr (0, 0)) fun m => Even (m (0, 0)) := by
  have hplace : counterAt getVirtStartAddr (0, 0) getVirtStartAddr = some (0, 0) := if_pos rfl
  cases k with
  | none =>
    refine ⟨fun m hm => ⟨fun _ => trivial, m (0, 0), ?_, hm⟩, fun m _ as x hleads _ ℓ v hw => ?_⟩
    · simp only [Memory.ofPlaces, hplace, Option.map_some]
    · rcases hleads.of_read with ⟨-, hq⟩ | ⟨_, _, as', -, rfl, hrest⟩
      · cases hq
      · obtain ⟨rfl, -⟩ := hrest.of_ret
        simp at hw
  | some k =>
    refine ⟨fun m hm => ⟨fun _ => trivial, m (0, 0), ?_,
      Function.update m (0, 0) (m (0, 0) + 2 * k), ?_, ?_⟩,
      fun m _ as x hleads _ ℓ v hw ℓ' w hr => ?_⟩
    · simp only [Memory.ofPlaces, hplace, Option.map_some]
    · simp only [Memory.ofPlaces, hplace, Option.map_some]
    · show Even (Function.update m (0, 0) _ (0, 0))
      rw [Function.update_self]
      exact hm.add (even_two_mul _)
    · -- it reads the counter and then writes it
      rcases hleads.of_read with ⟨-, hq⟩ | ⟨ℓ₀, v₀, as', hℓ₀, rfl, hrest⟩
      · cases hq
      rcases hrest.of_write with ⟨-, hq⟩ | ⟨ℓ₁, as'', hℓ₁, rfl, hlast⟩
      · cases hq
      obtain ⟨rfl, -⟩ := hlast.of_ret
      obtain rfl : ℓ₀ = ℓ₁ := Option.some.inj (hℓ₀.symm.trans hℓ₁)
      obtain ⟨rfl, -⟩ : ℓ' = ℓ₀ ∧ w = v₀ := by simpa using hr
      exact ⟨_, List.mem_cons_of_mem _ List.mem_cons_self⟩

/-- The turns in which two threads add two and four to a word. -/
def addingTurns : List (CallerAction (Fin 2) (Option ℕ)) :=
  [.call 0 (some 1), .call 1 (some 2), .go 0, .go 0, .go 0, .go 1, .go 1] ++
    List.replicate 7 (.go 0) ++ List.replicate 9 (.go 1)

theorem exists_adding : ∃ h u, Run (Users.step true evenTx) anyStep
    (Users.start counterState) h u ∧ u.state.committed (0, 0) = 6 := by
  obtain ⟨⟨u, h⟩, hexec⟩ := Option.isSome_iff_exists.mp
    (show (exec (Users.step true evenTx) addingTurns (Users.start counterState, [])).isSome by
      decide +kernel)
  have hsum : (exec (Users.step true evenTx) addingTurns (Users.start counterState, [])).map
      (fun p => p.1.state.committed (0, 0)) = some 6 := by
    decide +kernel
  rw [hexec] at hsum
  exact ⟨h, u, Run.start.of_exec addingTurns hexec, Option.some.inj hsum⟩

theorem transactional_refines_adding :
    ∃ h u, Run (Users.step true evenTx) anyStep (Users.start counterState) h u ∧
      u.state.committed (0, 0) = 6 ∧ Run (Callers.step (progOf evenTx)) anyStep
        ⟨counterState, fun _ => ⟨none, none⟩⟩ (h.map UserReport.seen) u.callers := by
  obtain ⟨h, u, hr, hsum⟩ := exists_adding
  exact ⟨h, u, hr, hsum, (transactional_refines evenTx_plain counterState_atRest hr).1⟩

theorem closures_atomic_adding :
    ∃ h u, Run (Users.step true evenTx) anyStep (Users.start counterState) h u ∧
      u.state.committed (0, 0) = 6 ∧ ∃ order : List (Commit (Option ℕ) ℤ),
        order.Perm ((commits (h.map UserReport.seen)).filter fun b =>
          b.txn.epoch < u.state.epoch) ∧
        Respects (Precedes (txEvents (h.map UserReport.seen))) (order.map Commit.txn) ∧
        Prog.InSequence (Memory.ofPlaces (counterAt getVirtStartAddr (0, 0))) ()
          (order.map fun b => ((evenTx b.job).2.toProg, b.value)) counterState.committed
          u.state.committed := by
  obtain ⟨h, u, hr, hsum⟩ := exists_adding
  exact ⟨h, u, hr, hsum, (closures_atomic evenTx_plain evenTx_sane counterState_atRest
    (tmCreate_settled ..) counterState_placed Even.zero hr).2⟩

end DualStm
