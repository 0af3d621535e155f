import DualStm.Library.Atomic
import DualStm.Library.Mutex
import DualStm.Ownership
import Mathlib.Algebra.GroupWithZero.Nat

/-!
# The word operations, access by access

`read_word`, `write_word` and the body of the word loop of `abort_transaction_tx` as
sequences of accesses to one word: to `word_has_been_written` and `access_set` of its
control entry, to its lock, to its two copies. Any number of transactions of one epoch
interleave their accesses. A thread is at the access it makes next, its `WordPc`.

Everything else in this development takes these operations to be atomic: `readWord`,
`writeWord` and `releaseWord`. `word_operations_atomic` says that it may. An operation
takes effect at its store to `word_has_been_written`, if it makes one; a read takes effect
under the lock; and an operation that finds out from an unlocked test that the word is not
its own takes effect at that test. The writable copy of the word lags behind: the first
write to a word stores there after it has released the lock.
-/

namespace DualStm

variable {W : Type}

/-- The operations on a word, as the library calls them. -/
inductive WordOp (W : Type) where
  /-- `read_word`, with its `read_only_word` -/
  | read (readOnlyWord : Bool)
  /-- `write_word`, with the word at `source` -/
  | write (source : W)
  /-- the body of the word loop of `abort_transaction_tx` -/
  | release
  deriving DecidableEq

/-- What the operations on a word return. -/
inductive WordResult (W : Type) where
  /-- `success_alloc`, the word read at `target` -/
  | value (v : W)
  /-- `success_alloc`; the end of the loop body -/
  | done
  /-- `abort_alloc` -/
  | aborted
  deriving DecidableEq

/-- What the operations do when nothing comes between their accesses. -/
def applyWord (tx j : ℕ) (op : WordOp W) (segment : Segment W) : WordResult W × Segment W :=
  match op with
  | .read readOnlyWord =>
    match readWord segment tx readOnlyWord j with
    | (some v, segment) => (.value v, segment)
    | (none, segment) => (.aborted, segment)
  | .write source =>
    match writeWord segment tx j source with
    | some segment => (.done, segment)
    | none => (.aborted, segment)
  | .release => (.done, releaseWord segment tx j)

/-- The access a thread makes next, in the order of the source. -/
inductive WordPc (W : Type) where
  /-- none -/
  | idle
  /-- the copy of a read-only transaction -/
  | roCopy
  /-- `read_word`: `lock_acquire` -/
  | rLock
  /-- `word_has_been_written == false` -/
  | rTest
  /-- `access_set == NONE` -/
  | rOwner
  /-- `access_set = tx` -/
  | rTake
  /-- `lock_release` -/
  | rUnlock
  /-- the copy of the committed word -/
  | rCopy
  /-- `word_has_been_written == true` -/
  | rTestAgain
  /-- `access_set == tx` -/
  | rOwnerAgain
  /-- `lock_release` -/
  | rUnlockOwn
  /-- the copy of the transaction's own write -/
  | rCopyOwn
  /-- `lock_release`, before `abort_alloc` -/
  | rUnlockAbort
  /-- `write_word`: `word_has_been_written == true`, without the lock -/
  | wTest (source : W)
  /-- `access_set == tx`, without the lock -/
  | wOwner (source : W)
  /-- the copy over the transaction's own write -/
  | wCopy (source : W)
  /-- `lock_acquire` -/
  | wLock (source : W)
  /-- `access_set != NONE` -/
  | wNone (source : W)
  /-- `access_set != tx` -/
  | wTx (source : W)
  /-- `lock_release`, before `abort_alloc` -/
  | wUnlockAbort
  /-- `access_set = tx` -/
  | wTake (source : W)
  /-- `word_has_been_written = true` -/
  | wMark (source : W)
  /-- `lock_release` -/
  | wUnlock (source : W)
  /-- the copy of the first write -/
  | wCopyFirst (source : W)
  /-- `abort_transaction_tx`: `access_set == tx`, without the lock -/
  | aOwner
  /-- `word_has_been_written == true`, without the lock -/
  | aTest
  /-- `lock_acquire` -/
  | aLock
  /-- `access_set = NONE` -/
  | aClear
  /-- `word_has_been_written = false` -/
  | aUnmark
  /-- `lock_release` -/
  | aUnlock
  /-- the `return` of the operation -/
  | returning (r : WordResult W)
  deriving DecidableEq

/-- The first access of an operation. -/
def WordOp.first : WordOp W → WordPc W
  | .read true => .roCopy
  | .read false => .rLock
  | .write source => .wTest source
  | .release => .aOwner

/-- A word, in its segment, and the threads that work on it. -/
structure WordState (τ W : Type) where
  /-- the segment -/
  seg : Segment W
  /-- the thread that owns the lock of the word -/
  lock : Option τ
  /-- the threads -/
  pc : τ → WordPc W

/-- What the threads at the word may do. -/
inductive WordAction (τ W : Type) where
  /-- call an operation -/
  | call (t : τ) (op : WordOp W)
  /-- make the next access -/
  | go (t : τ)

/-- An event of the word: a call, a return, or nothing to be seen. -/
abbrev WordEvent (τ W : Type) := CallEvent τ (WordOp W) (WordResult W)

namespace WordState

variable {τ : Type} [DecidableEq τ]

/-- The word before anybody is at it. -/
def start (seg : Segment W) : WordState τ W := ⟨seg, none, fun _ => .idle⟩

/-- Thread `t` is before another access. -/
def moveTo (s : WordState τ W) (t : τ) (p : WordPc W) : WordState τ W :=
  { s with pc := Function.update s.pc t p }

/-- A step that is not seen and changes nothing. -/
def silently (s : WordState τ W) : Option (WordState τ W × WordEvent τ W) := some (s, .silent)

/-- `lock_acquire`: blocks while the lock is owned. -/
def acquire (s : WordState τ W) (t : τ) (p : WordPc W) :
    Option (WordState τ W × WordEvent τ W) :=
  if s.lock = none then ({ s with lock := some t }.moveTo t p).silently else none

/-- `lock_release`, after which the thread is before `p`. -/
def release (s : WordState τ W) (t : τ) (p : WordPc W) :
    Option (WordState τ W × WordEvent τ W) :=
  ({ s with lock := none }.moveTo t p).silently

/-- A store to the control entry of the word. -/
def setControl (s : WordState τ W) (j : ℕ) (c : Control) : WordState τ W :=
  { s with seg := s.seg.setControl j c }

/-- A store to the writable copy of the word. -/
def copy (s : WordState τ W) (j : ℕ) (source : W) : WordState τ W :=
  { s with seg := writeToCorrectCopy j source s.seg }

/-- The next access of thread `t`, for the transaction `tx`, to word `j`. -/
def go (tx j : ℕ) (s : WordState τ W) (t : τ) : Option (WordState τ W × WordEvent τ W) :=
  let control := s.seg.control j
  match s.pc t with
  | .idle => none
  | .roCopy => (s.moveTo t (.returning (.value (readReadOnlyCopy j s.seg)))).silently
  | .rLock => s.acquire t .rTest
  | .rTest =>
    (s.moveTo t (if control.wordHasBeenWritten = false then .rOwner else .rTestAgain)).silently
  | .rOwner => (s.moveTo t (if control.accessSet = NONE then .rTake else .rUnlock)).silently
  | .rTake => ((s.setControl j { control with accessSet := tx }).moveTo t .rUnlock).silently
  | .rUnlock => s.release t .rCopy
  | .rCopy => (s.moveTo t (.returning (.value (readReadOnlyCopy j s.seg)))).silently
  | .rTestAgain =>
    (s.moveTo t (if control.wordHasBeenWritten = true then .rOwnerAgain
      else .rUnlockAbort)).silently
  | .rOwnerAgain =>
    (s.moveTo t (if control.accessSet = tx then .rUnlockOwn else .rUnlockAbort)).silently
  | .rUnlockOwn => s.release t .rCopyOwn
  | .rCopyOwn => (s.moveTo t (.returning (.value (readWritableCopy j s.seg)))).silently
  | .rUnlockAbort => s.release t (.returning .aborted)
  | .wTest v =>
    (s.moveTo t (if control.wordHasBeenWritten = true then .wOwner v else .wLock v)).silently
  | .wOwner v =>
    (s.moveTo t (if control.accessSet = tx then .wCopy v else .returning .aborted)).silently
  | .wCopy v => ((s.copy j v).moveTo t (.returning .done)).silently
  | .wLock v => s.acquire t (.wNone v)
  | .wNone v => (s.moveTo t (if control.accessSet ≠ NONE then .wTx v else .wTake v)).silently
  | .wTx v => (s.moveTo t (if control.accessSet ≠ tx then .wUnlockAbort else .wTake v)).silently
  | .wUnlockAbort => s.release t (.returning .aborted)
  | .wTake v => ((s.setControl j { control with accessSet := tx }).moveTo t (.wMark v)).silently
  | .wMark v =>
    ((s.setControl j { control with wordHasBeenWritten := true }).moveTo t (.wUnlock v)).silently
  | .wUnlock v => s.release t (.wCopyFirst v)
  | .wCopyFirst v => ((s.copy j v).moveTo t (.returning .done)).silently
  | .aOwner =>
    (s.moveTo t (if control.accessSet = tx then .aTest else .returning .done)).silently
  | .aTest =>
    (s.moveTo t (if control.wordHasBeenWritten = true then .aLock
      else .returning .done)).silently
  | .aLock => s.acquire t .aClear
  | .aClear => ((s.setControl j { control with accessSet := NONE }).moveTo t .aUnmark).silently
  | .aUnmark =>
    ((s.setControl j { control with wordHasBeenWritten := false }).moveTo t .aUnlock).silently
  | .aUnlock => s.release t (.returning .done)
  | .returning r => some (s.moveTo t .idle, .returned t r)

/-- The transition function: `id` gives the transaction of a thread. -/
def step (id : τ → ℕ) (j : ℕ) (s : WordState τ W) :
    WordAction τ W → Option (WordState τ W × WordEvent τ W)
  | .call t op =>
    match s.pc t with
    | .idle => some (s.moveTo t op.first, .called t op)
    | _ => none
  | .go t => s.go (id t) j t

end WordState

/-! ## What the operations do

Each operation as a whole does one of few things to a word, by what it finds in the control
entry. These are the cases in which the accesses below have to take effect. -/

section

variable {seg : Segment W} {tx j : ℕ} {v : W}

@[simp] theorem setControl_control (c : Control) : (seg.setControl j c).control j = c := by
  simp [Segment.setControl]

@[simp] theorem setControl_setControl (c c' : Control) :
    (seg.setControl j c).setControl j c' = seg.setControl j c' := by
  simp [Segment.setControl]

@[simp] theorem writeToCorrectCopy_control :
    (writeToCorrectCopy j v seg).control = seg.control := by
  unfold writeToCorrectCopy
  split <;> rfl

@[simp] theorem readReadOnlyCopy_writeToCorrectCopy :
    readReadOnlyCopy j (writeToCorrectCopy j v seg) = readReadOnlyCopy j seg := by
  rw [readReadOnlyCopy_eq, word_writeToCorrectCopy_self, Word.readOnly_store,
    readReadOnlyCopy_eq]

/-- The committed copy is found through `word_is_ro` alone. -/
theorem readReadOnlyCopy_setControl (c : Control) (hc : c.wordIsRo = (seg.control j).wordIsRo) :
    readReadOnlyCopy j (seg.setControl j c) = readReadOnlyCopy j seg := by
  simp [readReadOnlyCopy, Segment.setControl, hc]

/-- The transaction is the owner of a written word. -/
def Owns (tx j : ℕ) (seg : Segment W) : Prop :=
  (seg.control j).accessSet = tx ∧ (seg.control j).wordHasBeenWritten = true

theorem applyWord_readOnly :
    applyWord tx j (.read true) seg = (.value (readReadOnlyCopy j seg), seg) := rfl

/-- The first read access takes the word for its transaction. -/
theorem applyWord_take (hw : (seg.control j).wordHasBeenWritten = false)
    (ho : (seg.control j).accessSet = NONE) :
    applyWord tx j (.read false) seg = (.value (readReadOnlyCopy j seg),
      seg.setControl j { seg.control j with accessSet := tx }) := by
  have hro := readReadOnlyCopy_setControl { seg.control j with accessSet := tx } rfl
  simp only [applyWord, readWord, hw, ho, if_true, Bool.false_eq_true, if_false]
  rw [← hro]
  simp only [hw]

/-- A later read access leaves no trace. -/
theorem applyWord_read (hw : (seg.control j).wordHasBeenWritten = false)
    (ho : (seg.control j).accessSet ≠ NONE) :
    applyWord tx j (.read false) seg = (.value (readReadOnlyCopy j seg), seg) := by
  simp [applyWord, readWord, hw, ho]

theorem applyWord_readOwn (ho : Owns tx j seg) :
    applyWord tx j (.read false) seg = (.value (readWritableCopy j seg), seg) := by
  simp [applyWord, readWord, ho.1, ho.2]

theorem applyWord_readRefused (hw : (seg.control j).wordHasBeenWritten = true)
    (ho : (seg.control j).accessSet ≠ tx) :
    applyWord tx j (.read false) seg = (.aborted, seg) := by
  simp [applyWord, readWord, hw, ho]

theorem applyWord_writeOwn (ho : Owns tx j seg) :
    applyWord tx j (.write v) seg = (.done, writeToCorrectCopy j v seg) := by
  simp [applyWord, writeWord, ho.1, ho.2]

/-- The first write marks the word as written by its transaction. -/
theorem applyWord_mark (hw : (seg.control j).wordHasBeenWritten = false)
    (ho : (seg.control j).accessSet = NONE ∨ (seg.control j).accessSet = tx) :
    applyWord tx j (.write v) seg = (.done, writeToCorrectCopy j v
      (seg.setControl j
        { seg.control j with accessSet := tx, wordHasBeenWritten := true })) := by
  obtain ho | ho := ho <;> simp [applyWord, writeWord, hw, ho]

theorem applyWord_writeRefused (ho : (seg.control j).accessSet ≠ tx)
    (hn : (seg.control j).wordHasBeenWritten = false → (seg.control j).accessSet ≠ NONE) :
    applyWord tx j (.write v) seg = (.aborted, seg) := by
  cases hw : (seg.control j).wordHasBeenWritten <;> simp [applyWord, writeWord, hw, ho, hn]

theorem applyWord_releaseOwn (ho : Owns tx j seg) :
    applyWord tx j .release seg = (.done, seg.setControl j
      { seg.control j with accessSet := NONE, wordHasBeenWritten := false }) := by
  simp [applyWord, releaseWord, ho.1, ho.2]

theorem applyWord_releaseNothing (ho : ¬ Owns tx j seg) :
    applyWord tx j .release seg = (.done, seg) := by
  simp only [applyWord, releaseWord]
  exact congrArg _ (if_neg ho)

end

/-- What an operation of another transaction does to the word, as `tx` sees it. -/
structure Foreign (tx j : ℕ) (A A' : Segment W) : Prop where
  /-- the committed copy stays -/
  readOnly : readReadOnlyCopy j A' = readReadOnlyCopy j A
  /-- a word that `tx` owns stays as it is -/
  owner : (A.control j).accessSet = tx → A' = A
  /-- the word does not become its own -/
  other : (A.control j).accessSet ≠ tx → (A'.control j).accessSet ≠ tx
  /-- a written word has an owner -/
  owned : ((A.control j).wordHasBeenWritten = true → (A.control j).accessSet ≠ NONE) →
    (A'.control j).wordHasBeenWritten = true → (A'.control j).accessSet ≠ NONE

theorem Foreign.refl (tx j : ℕ) (A : Segment W) : Foreign tx j A A :=
  ⟨rfl, fun _ => rfl, id, id⟩

section

variable {seg : Segment W} {tx tx' j : ℕ} {v : W}

/-- Operations of different transactions. -/
theorem foreign_applyWord (hne : tx' ≠ tx) (htx : tx ≠ NONE) (htx' : tx' ≠ NONE)
    (op : WordOp W) : Foreign tx j seg (applyWord tx' j op seg).2 := by
  by_cases hown : Owns tx' j seg
  · have hother : (seg.control j).accessSet ≠ tx := by rwa [hown.1]
    cases op with
    | read readOnlyWord =>
      cases readOnlyWord
      · rw [applyWord_readOwn hown]
        exact .refl ..
      · exact .refl ..
    | write v =>
      rw [applyWord_writeOwn hown]
      refine ⟨readReadOnlyCopy_writeToCorrectCopy, fun ho => absurd ho hother, ?_, ?_⟩ <;>
        rw [writeToCorrectCopy_control]
      · exact id
      · exact id
    | release =>
      rw [applyWord_releaseOwn hown]
      refine ⟨readReadOnlyCopy_setControl _ rfl, fun ho => absurd ho hother, fun _ => ?_,
        fun _ hw => ?_⟩
      · rw [setControl_control]
        exact htx.symm
      · rw [setControl_control] at hw
        cases hw
  · cases op with
    | release =>
      rw [applyWord_releaseNothing hown]
      exact .refl ..
    | read readOnlyWord =>
      cases readOnlyWord
      · cases hw : (seg.control j).wordHasBeenWritten
        · by_cases ho : (seg.control j).accessSet = NONE
          · rw [applyWord_take hw ho]
            refine ⟨readReadOnlyCopy_setControl _ rfl, fun h => absurd (ho.symm.trans h) htx.symm,
              fun _ => ?_, fun _ _ => ?_⟩ <;> rw [setControl_control]
            · exact hne
            · exact htx'
          · rw [applyWord_read hw ho]
            exact .refl ..
        · rw [applyWord_readRefused hw fun ho => hown ⟨ho, hw⟩]
          exact .refl ..
      · exact .refl ..
    | write v =>
      cases hw : (seg.control j).wordHasBeenWritten
      · by_cases ho : (seg.control j).accessSet = NONE ∨ (seg.control j).accessSet = tx'
        · rw [applyWord_mark hw ho]
          refine ⟨?_, ?_, ?_, ?_⟩
          · rw [readReadOnlyCopy_writeToCorrectCopy]
            exact readReadOnlyCopy_setControl _ rfl
          · intro h
            obtain ho | ho := ho
            · exact absurd (ho.symm.trans h) htx.symm
            · exact absurd (ho.symm.trans h) hne
          · intro _
            rw [writeToCorrectCopy_control, setControl_control]
            exact hne
          · intro _ _
            rw [writeToCorrectCopy_control, setControl_control]
            exact htx'
        · rw [not_or] at ho
          rw [applyWord_writeRefused ho.2 fun _ => ho.1]
          exact .refl ..
      · rw [applyWord_writeRefused (fun ho => hown ⟨ho, hw⟩) fun hc => by rw [hw] at hc; cases hc]
        exact .refl ..

end

/-! ## The simulation

The word is its atomic object, but for the stores that an operation still owes after it has
taken effect. At most one thread owes any, and who it is can be told from where the threads
are. -/

/-- The thread owns the lock of the word. -/
def WordPc.locked : WordPc W → Bool
  | .rTest | .rOwner | .rTake | .rUnlock | .rTestAgain | .rOwnerAgain | .rUnlockOwn
  | .rUnlockAbort => true
  | .wNone _ | .wTx _ | .wUnlockAbort | .wTake _ | .wMark _ | .wUnlock _ => true
  | .aClear | .aUnmark | .aUnlock => true
  | _ => false

/-- The thread has begun to store what its operation is to store, and is not through. -/
def WordPc.lags : WordPc W → Bool
  | .wMark _ | .wUnlock _ | .wCopyFirst _ | .aUnmark => true
  | _ => false

/-- Where the word `S` is behind the atomic one `A`, or ahead of it, because of a thread. -/
def Behind (tx j : ℕ) (p : WordPc W) (S A : Segment W) : Prop :=
  match p with
  | .wMark _ => S = A.setControl j { A.control j with accessSet := tx }
  | .wUnlock v | .wCopyFirst v => A = writeToCorrectCopy j v S
  | .aUnmark => S = A.setControl j { A.control j with accessSet := NONE }
  | _ => S = A

/-- What the transaction of a thread has found out about the atomic word, and where the
thread is with its operation there. -/
def Knows (tx j : ℕ) (A : Segment W) (p : WordPc W)
    (ph : Phase (WordOp W) (WordResult W)) : Prop :=
  let control := A.control j
  match p with
  | .idle => ph = .idle
  | .roCopy => ph = .pending (.read true)
  | .rLock | .rTest => ph = .pending (.read false)
  | .rOwner => ph = .pending (.read false) ∧ control.wordHasBeenWritten = false
  | .rTake => ph = .pending (.read false) ∧ control.wordHasBeenWritten = false ∧
      control.accessSet = NONE
  | .rUnlock | .rCopy => ph = .done (.value (readReadOnlyCopy j A))
  | .rTestAgain | .rOwnerAgain =>
    ph = .pending (.read false) ∧ control.wordHasBeenWritten = true
  | .rUnlockOwn | .rCopyOwn => ph = .done (.value (readWritableCopy j A)) ∧ Owns tx j A
  | .rUnlockAbort | .wUnlockAbort => ph = .done .aborted
  | .wTest v => ph = .pending (.write v)
  | .wOwner v => ph = .pending (.write v) ∧ Owns tx j A ∨
      ph = .done .aborted ∧ control.accessSet ≠ tx
  | .wCopy v => ph = .pending (.write v) ∧ Owns tx j A
  | .wLock v | .wNone v => ph = .pending (.write v) ∧
      (control.wordHasBeenWritten = true → control.accessSet ≠ NONE ∧ control.accessSet ≠ tx)
  | .wTx v => ph = .pending (.write v) ∧
      (control.wordHasBeenWritten = true → control.accessSet ≠ tx) ∧ control.accessSet ≠ NONE
  | .wTake v | .wMark v => ph = .pending (.write v) ∧ control.wordHasBeenWritten = false ∧
      (control.accessSet = NONE ∨ control.accessSet = tx)
  | .wUnlock _ | .wCopyFirst _ => ph = .done .done ∧ Owns tx j A
  | .aOwner => ph = .pending .release
  | .aTest => ph = .pending .release ∧ control.accessSet = tx
  | .aLock | .aClear | .aUnmark => ph = .pending .release ∧ Owns tx j A
  | .aUnlock => ph = .done .done
  | .returning r => ph = .done r

theorem behind_of_not_lags {tx j : ℕ} {p : WordPc W} {S A : Segment W} (hl : p.lags = false) :
    Behind tx j p S A ↔ S = A := by
  cases p <;> first | rfl | cases hl

/-- What a transaction has found out stays so whatever the others do; what it has found
out about the control entry under the lock, as long as they leave the entry alone. -/
theorem Knows.foreign {tx j : ℕ} {A A' : Segment W} {p : WordPc W}
    {ph : Phase (WordOp W) (WordResult W)} (hk : Knows tx j A p ph) (hf : Foreign tx j A A')
    (hc : p.locked = true → A'.control j = A.control j) : Knows tx j A' p ph := by
  cases p with
  | idle | roCopy | rLock | rTest | rUnlockAbort | wTest | wUnlockAbort | aOwner | aUnlock
  | returning => exact hk
  | rOwner | rTake | rTestAgain | rOwnerAgain | wNone | wTx | wTake | wMark =>
    simp only [Knows, hc rfl]
    exact hk
  | rUnlock | rCopy =>
    simp only [Knows, hf.readOnly]
    exact hk
  | rUnlockOwn | rCopyOwn | wCopy | wUnlock | wCopyFirst | aLock | aClear | aUnmark =>
    rw [hf.owner hk.2.1]
    exact hk
  | aTest =>
    rw [hf.owner hk.2]
    exact hk
  | wOwner v =>
    obtain ⟨hp, ho⟩ | ⟨hp, ho⟩ := hk
    · rw [hf.owner ho.1]
      exact .inl ⟨hp, ho⟩
    · exact .inr ⟨hp, hf.other ho⟩
  | wLock v =>
    obtain ⟨hp, hn⟩ := hk
    refine ⟨hp, fun hw => ⟨hf.owned (fun hw => (hn hw).1) hw, ?_⟩⟩
    by_cases ho : (A.control j).accessSet = tx
    · rw [hf.owner ho] at hw ⊢
      exact (hn hw).2
    · exact hf.other ho

section

variable {τ : Type} {id : τ → ℕ} {j : ℕ}

/-- The word and the atomic word it stands for. -/
structure WordSim (id : τ → ℕ) (j : ℕ) (s : WordState τ W)
    (a : AtomicState (Segment W) τ (WordOp W) (WordResult W)) : Prop where
  /-- the lock is owned by the thread that is inside -/
  lock : ∀ t, s.lock = some t ↔ (s.pc t).locked = true
  /-- what the transactions know -/
  knows : ∀ t, Knows (id t) j a.obj (s.pc t) (a.phase t)
  /-- the word is behind because of one thread at most -/
  behind : ∀ t, (∀ u, u ≠ t → (s.pc u).lags = false) → Behind (id t) j (s.pc t) s.seg a.obj
  /-- the word is not behind if no thread lags -/
  synced : (∀ t, (s.pc t).lags = false) → s.seg = a.obj

namespace WordSim

variable {s : WordState τ W} {a : AtomicState (Segment W) τ (WordOp W) (WordResult W)} {t : τ}

/-- The lock is owned by one thread at most. -/
theorem eq_of_locked (hs : WordSim id j s a) {t u : τ} (ht : (s.pc t).locked = true)
    (hu : (s.pc u).locked = true) : u = t := by
  have ho := (hs.lock t).mpr ht
  rw [(hs.lock u).mpr hu] at ho
  exact Option.some.inj ho

/-- A thread that lags is at the control entry, under the lock, or owns the word. -/
theorem of_lags (hs : WordSim id j s a) (hl : (s.pc t).lags = true) :
    (s.pc t).locked = true ∧ ((a.obj.control j).accessSet = NONE ∨
      (a.obj.control j).accessSet = id t) ∧ (a.obj.control j).wordHasBeenWritten = false ∨
    Owns (id t) j a.obj := by
  have hk := hs.knows t
  generalize s.pc t = p at hk hl
  cases p with
  | wMark v => exact .inl ⟨rfl, hk.2.2, hk.2.1⟩
  | wUnlock v | wCopyFirst v | aUnmark => exact .inr hk.2
  | _ => cases hl

/-- While a transaction owns the word no other thread lags. -/
theorem alone_of_owns (hs : WordSim id j s a) (hid : Function.Injective id)
    (ho : Owns (id t) j a.obj) {u : τ} (hu : u ≠ t) : (s.pc u).lags = false := by
  rw [← Bool.not_eq_true]
  intro hl
  obtain ⟨-, -, hw⟩ | ⟨hown, -⟩ := hs.of_lags hl
  · rw [ho.2] at hw
    cases hw
  · exact hu (hid (hown.symm.trans ho.1))

/-- No other thread lags while one has the lock, of a word that nobody else has. -/
theorem alone_of_locked (hs : WordSim id j s a) (hid : Function.Injective id)
    (hnone : ∀ t, id t ≠ NONE) (hl : (s.pc t).locked = true)
    (ho : (a.obj.control j).accessSet = NONE ∨ (a.obj.control j).accessSet = id t) {u : τ}
    (hu : u ≠ t) : (s.pc u).lags = false := by
  rw [← Bool.not_eq_true]
  intro hlag
  obtain ⟨hlock, -, -⟩ | ⟨hown, -⟩ := hs.of_lags hlag
  · exact hu (hs.eq_of_locked hl hlock)
  · obtain ho | ho := ho
    · exact hnone u (hown.symm.trans ho)
    · exact hu (hid (hown.symm.trans ho))

/-- One thread lags at most. -/
theorem alone_of_lags (hs : WordSim id j s a) (hid : Function.Injective id)
    (hnone : ∀ t, id t ≠ NONE) (hl : (s.pc t).lags = true) {u : τ} (hu : u ≠ t) :
    (s.pc u).lags = false := by
  obtain ⟨hlock, ho, -⟩ | ho := hs.of_lags hl
  · exact hs.alone_of_locked hid hnone hlock ho hu
  · exact hs.alone_of_owns hid ho hu

/-- The words agree if no other thread lags either. -/
theorem synced_of_alone (hs : WordSim id j s a) (hl : (s.pc t).lags = false)
    (halone : ∀ u, u ≠ t → (s.pc u).lags = false) : s.seg = a.obj :=
  (behind_of_not_lags hl).mp (hs.behind t halone)

/-- What an access finds, of a word that may be behind because of another thread. -/
theorem cases (hs : WordSim id j s a) (hid : Function.Injective id) (hnone : ∀ t, id t ≠ NONE)
    (hl : (s.pc t).lags = false) :
    s.seg = a.obj ∨ ∃ u, u ≠ t ∧ (s.pc u).lags = true ∧
      Behind (id u) j (s.pc u) s.seg a.obj := by
  by_cases hex : ∃ u, (s.pc u).lags = true
  · obtain ⟨u, hu⟩ := hex
    refine .inr ⟨u, ?_, hu, hs.behind u fun w hw => hs.alone_of_lags hid hnone hu hw⟩
    rintro rfl
    rw [hu] at hl
    cases hl
  · refine .inl (hs.synced ?_)
    intro u
    rw [← Bool.not_eq_true]
    exact fun hu => hex ⟨u, hu⟩

section

variable (hs : WordSim id j s a) (hid : Function.Injective id) (hnone : ∀ t, id t ≠ NONE)
  (hl : (s.pc t).lags = false)

include hs hid hnone hl

/-- `word_has_been_written` is always up to date. -/
theorem written_eq :
    (s.seg.control j).wordHasBeenWritten = (a.obj.control j).wordHasBeenWritten := by
  obtain heq | ⟨u, -, hu, hb⟩ := hs.cases hid hnone hl
  · rw [heq]
  · generalize s.pc u = p at hu hb
    cases p with
    | wMark v | aUnmark =>
      have hS : s.seg = a.obj.setControl j _ := hb
      rw [hS, setControl_control]
    | wUnlock v | wCopyFirst v =>
      have hA : a.obj = writeToCorrectCopy j v s.seg := hb
      rw [hA, writeToCorrectCopy_control]
    | _ => cases hu

/-- The committed copy is that of the atomic word. -/
theorem readOnly_eq : readReadOnlyCopy j s.seg = readReadOnlyCopy j a.obj := by
  obtain heq | ⟨u, -, hu, hb⟩ := hs.cases hid hnone hl
  · rw [heq]
  · generalize s.pc u = p at hu hb
    cases p with
    | wMark v | aUnmark =>
      have hS : s.seg = a.obj.setControl j _ := hb
      rw [hS]
      exact readReadOnlyCopy_setControl _ rfl
    | wUnlock v | wCopyFirst v =>
      have hA : a.obj = writeToCorrectCopy j v s.seg := hb
      rw [hA, readReadOnlyCopy_writeToCorrectCopy]
    | _ => cases hu

/-- `access_set` may be another transaction's too early or too late, but a transaction
finds its own id there when it should. -/
theorem owner_iff :
    (s.seg.control j).accessSet = id t ↔ (a.obj.control j).accessSet = id t := by
  obtain heq | ⟨u, hut, hu, hb⟩ := hs.cases hid hnone hl
  · rw [heq]
  · have hne : id u ≠ id t := fun h => hut (hid h)
    have hk := hs.knows u
    generalize s.pc u = p at hu hb hk
    cases p with
    | wMark v =>
      have hS : s.seg = a.obj.setControl j _ := hb
      rw [hS, setControl_control]
      obtain ho | ho := hk.2.2 <;> rw [ho]
      · exact iff_of_false hne (hnone t).symm
    | aUnmark =>
      have hS : s.seg = a.obj.setControl j _ := hb
      rw [hS, setControl_control, hk.2.1]
      exact iff_of_false (hnone t).symm hne
    | wUnlock v | wCopyFirst v =>
      have hA : a.obj = writeToCorrectCopy j v s.seg := hb
      rw [hA, writeToCorrectCopy_control]
    | _ => cases hu

/-- The thread that has the lock finds the control entry as it is. -/
theorem control_of_locked (hlock : (s.pc t).locked = true) :
    s.seg.control j = a.obj.control j := by
  obtain heq | ⟨u, hut, hu, hb⟩ := hs.cases hid hnone hl
  · rw [heq]
  · have hout : (s.pc u).locked ≠ true := fun hc => hut (hs.eq_of_locked hlock hc)
    generalize s.pc u = p at hu hb hout
    cases p with
    | wMark v | aUnmark | wUnlock v => exact absurd rfl hout
    | wCopyFirst v =>
      have hA : a.obj = writeToCorrectCopy j v s.seg := hb
      rw [hA, writeToCorrectCopy_control]
    | _ => cases hu

end

/-- One access of thread `t`, and what it is in the atomic object. -/
theorem move [DecidableEq τ] (hs : WordSim id j s a) (hid : Function.Injective id)
    (hnone : ∀ t, id t ≠ NONE) {p p' : WordPc W} (hp : s.pc t = p) {s' : WordState τ W}
    {a' : AtomicState (Segment W) τ (WordOp W) (WordResult W)} {e : Option (LockEvent τ)}
    (hpc : s'.pc = Function.update s.pc t p') (hphase : ∀ u, u ≠ t → a'.phase u = a.phase u)
    (hlock : LockMove t s.lock p.locked s'.lock p'.locked e)
    (hrel : e = some (.released t) → p.locked = true)
    (hret : e = some (.returned t) → p.locked = false)
    (hknows : Knows (id t) j a'.obj p' (a'.phase t))
    (hforeign : ∀ u, u ≠ t → Foreign (id u) j a.obj a'.obj)
    (hheld : ∀ u, u ≠ t → (s.pc u).locked = true → a'.obj.control j = a.obj.control j)
    (hbehind : (∀ u, u ≠ t → (s.pc u).lags = false) → Behind (id t) j p s.seg a.obj →
      Behind (id t) j p' s'.seg a'.obj)
    (hquiet : ∀ u, u ≠ t → (s.pc u).lags = true → s'.seg = s.seg ∧ a'.obj = a.obj) :
    WordSim id j s' a' := by
  subst hp
  have hself : s'.pc t = p' := by rw [hpc, Function.update_self]
  have hother : ∀ u, u ≠ t → s'.pc u = s.pc u := by
    intro u hu
    rw [hpc, Function.update_of_ne hu]
  have hbehind' : ∀ u, (∀ w, w ≠ u → (s'.pc w).lags = false) →
      Behind (id u) j (s'.pc u) s'.seg a'.obj := by
    intro u halone
    by_cases hu : u = t
    · rw [hu, hself]
      rw [hu] at halone
      have halone : ∀ w, w ≠ t → (s.pc w).lags = false := by
        intro w hw
        rw [← hother w hw]
        exact halone w hw
      exact hbehind halone (hs.behind t halone)
    · -- another thread: either it is behind still, or nobody is
      have ht : p'.lags = false := by
        rw [← hself]
        exact halone t (Ne.symm hu)
      rw [hother u hu]
      cases hlag : (s.pc u).lags with
      | true =>
        obtain ⟨hseg, hobj⟩ := hquiet u hu hlag
        rw [hseg, hobj]
        exact hs.behind u fun w hw => hs.alone_of_lags hid hnone hlag hw
      | false =>
        have halone : ∀ w, w ≠ t → (s.pc w).lags = false := by
          intro w hw
          by_cases hwu : w = u
          · rwa [hwu]
          · rw [← hother w hw]
            exact halone w hwu
        have hb := hbehind halone (hs.behind t halone)
        exact (behind_of_not_lags hlag).mpr ((behind_of_not_lags ht).mp hb)
  refine ⟨?_, ?_, hbehind', ?_⟩
  · rw [← hself] at hlock
    exact hlock.owner_iff hs.lock hrel hret fun u hu => congrArg WordPc.locked (hother u hu)
  · intro u
    by_cases hu : u = t
    · rwa [hu, hself]
    · rw [hother u hu, hphase u hu]
      exact (hs.knows u).foreign (hforeign u hu) (hheld u hu)
  · intro hno
    exact (behind_of_not_lags (hno t)).mp (hbehind' t fun w _ => hno w)

/-- An access that stores nothing, of an operation that changes nothing. -/
theorem move_of_eq [DecidableEq τ] (hs : WordSim id j s a) (hid : Function.Injective id)
    (hnone : ∀ t, id t ≠ NONE) {p p' : WordPc W} (hp : s.pc t = p) {s' : WordState τ W}
    {a' : AtomicState (Segment W) τ (WordOp W) (WordResult W)} {e : Option (LockEvent τ)}
    (hpc : s'.pc = Function.update s.pc t p') (hseg : s'.seg = s.seg) (hobj : a'.obj = a.obj)
    (hphase : ∀ u, u ≠ t → a'.phase u = a.phase u)
    (hlock : LockMove t s.lock p.locked s'.lock p'.locked e)
    (hrel : e = some (.released t) → p.locked = true)
    (hret : e = some (.returned t) → p.locked = false) (hl : p.lags = false)
    (hl' : p'.lags = false) (hknows : Knows (id t) j a.obj p' (a'.phase t)) :
    WordSim id j s' a' := by
  refine hs.move hid hnone hp hpc hphase hlock hrel hret ?_ ?_ ?_ ?_ fun _ _ _ => ⟨hseg, hobj⟩
  · rwa [hobj]
  · intro u _
    rw [hobj]
    exact .refl ..
  · intro u _ _
    rw [hobj]
  · intro _ hb
    rw [behind_of_not_lags hl, ← hseg, ← hobj] at hb
    exact (behind_of_not_lags hl').mpr hb

end WordSim

/-- The operations of the atomic word. -/
def applyAt (id : τ → ℕ) (j : ℕ) (t : τ) : WordOp W → Segment W → WordResult W × Segment W :=
  applyWord (id t) j

/-- A step shows in the atomic word: as a call, an effect or a return there, or not at all. -/
def Shows [DecidableEq τ] (id : τ → ℕ) (j : ℕ)
    (a : AtomicState (Segment W) τ (WordOp W) (WordResult W)) (s' : WordState τ W)
    (e : WordEvent τ W) : Prop :=
  ∃ a', Matches (applyAt id j) a e a' ∧ WordSim id j s' a'

namespace WordSim

variable [DecidableEq τ] {s : WordState τ W}
  {a : AtomicState (Segment W) τ (WordOp W) (WordResult W)} {t : τ} {p p' : WordPc W}
  {op : WordOp W} {r : WordResult W} {s' : WordState τ W} {e : WordEvent τ W}

section

variable (hs : WordSim id j s a) (hid : Function.Injective id) (hnone : ∀ t, id t ≠ NONE)
  (hp : s.pc t = p)

include hs hid hnone hp

/-- An access that stores nothing and finds out nothing that matters shows as no step. -/
theorem stay (hlock : p'.locked = p.locked) (hl : p.lags = false) (hl' : p'.lags = false)
    (hknows : Knows (id t) j a.obj p' (a.phase t)) : Shows id j a (s.moveTo t p') .silent := by
  refine ⟨a, .stay, hs.move_of_eq hid hnone hp rfl rfl rfl (fun _ _ => rfl) (e := none) ?_ nofun
    nofun hl hl' hknows⟩
  rw [hlock]
  exact .idle

/-- The operation takes effect, and changes nothing. -/
theorem effect (hlock : p'.locked = p.locked) (hl : p.lags = false) (hl' : p'.lags = false)
    (hpend : a.phase t = .pending op) (happ : applyWord (id t) j op a.obj = (r, a.obj))
    (hknows : Knows (id t) j a.obj p' (.done r)) : Shows id j a (s.moveTo t p') .silent := by
  have hphase : (a.perform (applyAt id j) t op).phase t = .done r := by
    simp [AtomicState.perform, applyAt, happ]
  have hobj : (a.perform (applyAt id j) t op).obj = a.obj := by
    simp [AtomicState.perform, applyAt, happ]
  refine ⟨_, .perform hpend, hs.move_of_eq hid hnone hp rfl rfl hobj
    (fun u hu => AtomicState.setPhase_phase_ne _ _ _ hu) (e := none) ?_ nofun nofun hl hl' ?_⟩
  · rw [hlock]
    exact .idle
  · rwa [hphase]

/-- `lock_acquire` shows as no step. -/
theorem acquire (he : s.acquire t p' = some (s', e)) (hlock : p.locked = false)
    (hlock' : p'.locked = true) (hl : p.lags = false) (hl' : p'.lags = false)
    (hknows : Knows (id t) j a.obj p' (a.phase t)) : Shows id j a s' e := by
  unfold WordState.acquire at he
  split at he
  · rename_i hfree
    obtain ⟨rfl, rfl⟩ := Prod.mk.inj (Option.some.inj he)
    refine ⟨a, .stay, hs.move_of_eq hid hnone hp rfl rfl rfl (fun _ _ => rfl)
      (e := some (.acquired t)) ?_ nofun nofun hl hl' hknows⟩
    rw [hlock, hlock']
    exact .acquire hfree
  · cases he

/-- `lock_release` shows as no step. -/
theorem release (he : s.release t p' = some (s', e)) (hlock : p.locked = true)
    (hlock' : p'.locked = false) (hl : p.lags = false) (hl' : p'.lags = false)
    (hknows : Knows (id t) j a.obj p' (a.phase t)) : Shows id j a s' e := by
  obtain ⟨rfl, rfl⟩ := Prod.mk.inj (Option.some.inj he)
  refine ⟨a, .stay, hs.move_of_eq hid hnone hp rfl rfl rfl (fun _ _ => rfl)
    (e := some (.released t)) ?_ (fun _ => hlock) nofun hl hl' hknows⟩
  rw [hlock']
  exact .release

/-- A store that is not the effect of the operation. -/
theorem store (seg : Segment W) (hlock : p'.locked = p.locked)
    (halone : ∀ u, u ≠ t → (s.pc u).lags = false)
    (hb : Behind (id t) j p s.seg a.obj → Behind (id t) j p' seg a.obj)
    (hknows : Knows (id t) j a.obj p' (a.phase t)) :
    Shows id j a ({ s with seg := seg }.moveTo t p') .silent := by
  refine ⟨a, .stay, hs.move hid hnone hp rfl (fun _ _ => rfl) (e := none) ?_ nofun nofun hknows
    (fun _ _ => .refl ..) (fun _ _ _ => rfl) (fun _ => hb) ?_⟩
  · rw [hlock]
    exact .idle
  · intro u hu hlag
    rw [halone u hu] at hlag
    cases hlag

/-- A store with which the operation takes effect shows as its effect. -/
theorem storeEffect (seg : Segment W) {A : Segment W} (hlock : p'.locked = p.locked)
    (halone : ∀ u, u ≠ t → (s.pc u).lags = false) (hpend : a.phase t = .pending op)
    (happ : applyWord (id t) j op a.obj = (r, A))
    (hheld : p.locked = true ∨ A.control j = a.obj.control j)
    (hb : Behind (id t) j p s.seg a.obj → Behind (id t) j p' seg A)
    (hknows : Knows (id t) j A p' (.done r)) :
    Shows id j a ({ s with seg := seg }.moveTo t p') .silent := by
  have hphase : (a.perform (applyAt id j) t op).phase t = .done r := by
    simp [AtomicState.perform, applyAt, happ]
  have hobj : (a.perform (applyAt id j) t op).obj = A := by
    simp [AtomicState.perform, applyAt, happ]
  refine ⟨_, .perform hpend, hs.move hid hnone hp rfl (fun u hu => AtomicState.setPhase_phase_ne _ _
    _ hu) (e := none) ?_ nofun nofun ?_ ?_ ?_ ?_ ?_⟩
  · rw [hlock]
    exact .idle
  · rwa [hphase, hobj]
  · intro u hu
    have hf : Foreign (id u) j a.obj (applyWord (id t) j op a.obj).2 :=
      foreign_applyWord (fun h => hu (hid h).symm) (hnone u) (hnone t) op
    rw [happ] at hf
    rwa [hobj]
  · intro u hu hl
    rw [hobj]
    obtain hheld | hheld := hheld
    · exact absurd (hs.eq_of_locked (by rw [hp]; exact hheld) hl) hu
    · exact hheld
  · intro _ hold
    rw [hobj]
    exact hb hold
  · intro u hu hlag
    rw [halone u hu] at hlag
    cases hlag

end

end WordSim

/-! ## The accesses, operation by operation

One lemma for each access at which something happens: what is stored, and whether the operation
takes effect there. The loads are put together by operation. -/

section

variable [DecidableEq τ] {s s' : WordState τ W}
  {a : AtomicState (Segment W) τ (WordOp W) (WordResult W)} {t : τ} {e : WordEvent τ W}
  (hs : WordSim id j s a) (hid : Function.Injective id) (hnone : ∀ t, id t ≠ NONE)

include hs hid hnone

/-- The call of an operation shows as its call. -/
theorem shows_call {op : WordOp W} (hp : s.pc t = .idle) :
    Shows id j a (s.moveTo t op.first) (.called t op) := by
  have hk := hs.knows t
  rw [hp] at hk
  refine ⟨_, .call hk, hs.move_of_eq hid hnone hp rfl rfl rfl
    (fun u hu => AtomicState.setPhase_phase_ne _ _ _ hu) (e := none) ?_ nofun nofun rfl ?_ ?_⟩
  · cases op with
    | read readOnlyWord => cases readOnlyWord <;> exact .idle
    | write v => exact .idle
    | release => exact .idle
  · cases op with
    | read readOnlyWord => cases readOnlyWord <;> rfl
    | write v => rfl
    | release => rfl
  · rw [AtomicState.setPhase_phase_self]
    cases op with
    | read readOnlyWord => cases readOnlyWord <;> rfl
    | write v => rfl
    | release => rfl

/-- The return of an operation shows as its return. -/
theorem shows_return {r : WordResult W} (hp : s.pc t = .returning r) :
    Shows id j a (s.moveTo t .idle) (.returned t r) := by
  have hk := hs.knows t
  rw [hp] at hk
  refine ⟨_, .ret hk, hs.move_of_eq hid hnone hp rfl rfl rfl
    (fun u hu => AtomicState.setPhase_phase_ne _ _ _ hu) (e := none) .idle nofun nofun rfl rfl ?_⟩
  rw [AtomicState.setPhase_phase_self]
  rfl

/-- The store with which the first read takes the word shows as the effect of the read. -/
theorem shows_rTake (hp : s.pc t = .rTake) :
    Shows id j a ((s.setControl j { s.seg.control j with accessSet := id t }).moveTo t .rUnlock)
      .silent := by
  have hk := hs.knows t
  rw [hp] at hk
  obtain ⟨hpend, hw, ho⟩ := hk
  have halone : ∀ u, u ≠ t → (s.pc u).lags = false := fun u =>
    hs.alone_of_locked hid hnone (by rw [hp]; rfl) (.inl ho)
  refine hs.storeEffect hid hnone hp _ rfl halone hpend (applyWord_take hw ho) (.inl rfl) ?_ ?_
  · intro hb
    have heq : s.seg = a.obj := hb
    rw [heq]
    rfl
  · have hro : readReadOnlyCopy j (a.obj.setControl j { a.obj.control j with accessSet := id t }) =
        readReadOnlyCopy j a.obj := readReadOnlyCopy_setControl _ rfl
    exact congrArg (fun v => Phase.done (WordResult.value v)) hro.symm

/-- A write to the transaction's own word. -/
theorem shows_wCopy {v : W} (hp : s.pc t = .wCopy v) :
    Shows id j a ((s.copy j v).moveTo t (.returning .done)) .silent := by
  have hk := hs.knows t
  rw [hp] at hk
  obtain ⟨hpend, hown⟩ := hk
  refine hs.storeEffect hid hnone hp _ rfl (fun u => hs.alone_of_owns hid hown) hpend
    (applyWord_writeOwn hown) (.inr (congrFun writeToCorrectCopy_control j)) ?_ rfl
  intro hb
  have heq : s.seg = a.obj := hb
  rw [heq]
  rfl

/-- The store with which the first write takes the word shows as no step. -/
theorem shows_wTake {v : W} (hp : s.pc t = .wTake v) :
    Shows id j a ((s.setControl j { s.seg.control j with accessSet := id t }).moveTo t (.wMark v))
      .silent := by
  have hk := hs.knows t
  rw [hp] at hk
  have halone : ∀ u, u ≠ t → (s.pc u).lags = false := fun u =>
    hs.alone_of_locked hid hnone (by rw [hp]; rfl) hk.2.2
  refine hs.store hid hnone hp _ rfl halone ?_ hk
  intro hb
  have heq : s.seg = a.obj := hb
  rw [heq]
  rfl

/-- The first write marks it: from here on the copy is owed. -/
theorem shows_wMark {v : W} (hp : s.pc t = .wMark v) :
    Shows id j a ((s.setControl j { s.seg.control j with wordHasBeenWritten := true }).moveTo t
      (.wUnlock v)) .silent := by
  have hk := hs.knows t
  rw [hp] at hk
  obtain ⟨hpend, hw, ho⟩ := hk
  have halone : ∀ u, u ≠ t → (s.pc u).lags = false := fun u =>
    hs.alone_of_locked hid hnone (by rw [hp]; rfl) ho
  refine hs.storeEffect hid hnone hp _ rfl halone hpend (applyWord_mark hw ho) (.inl rfl) ?_
    ⟨rfl, ?_⟩
  · intro hb
    have heq : s.seg = a.obj.setControl j { a.obj.control j with accessSet := id t } := hb
    simp only [Behind, heq, setControl_control, setControl_setControl]
  · simp [Owns]

/-- The release of the lock after the first write shows as no step, with the copy still owed. -/
theorem shows_wUnlock {v : W} (hp : s.pc t = .wUnlock v)
    (he : s.release t (.wCopyFirst v) = some (s', e)) : Shows id j a s' e := by
  have hk := hs.knows t
  rw [hp] at hk
  obtain ⟨rfl, rfl⟩ := Prod.mk.inj (Option.some.inj he)
  refine ⟨a, .stay, hs.move hid hnone hp rfl (fun _ _ => rfl) (e := some (.released t)) .release
    (fun _ => rfl) nofun hk (fun _ _ => .refl ..) (fun _ _ _ => rfl) (fun _ hb => hb) ?_⟩
  intro u hu hlag
  rw [hs.alone_of_owns hid hk.2 hu] at hlag
  cases hlag

/-- The store with which a write copies what it owes shows as no step. -/
theorem shows_wCopyFirst {v : W} (hp : s.pc t = .wCopyFirst v) :
    Shows id j a ((s.copy j v).moveTo t (.returning .done)) .silent := by
  have hk := hs.knows t
  rw [hp] at hk
  exact hs.store hid hnone hp _ rfl (fun u => hs.alone_of_owns hid hk.2) (fun hb => Eq.symm hb)
    hk.1

/-- The store with which an abort clears the owner of a word shows as no step. -/
theorem shows_aClear (hp : s.pc t = .aClear) :
    Shows id j a ((s.setControl j { s.seg.control j with accessSet := NONE }).moveTo t .aUnmark)
      .silent := by
  have hk := hs.knows t
  rw [hp] at hk
  refine hs.store hid hnone hp _ rfl (fun u => hs.alone_of_owns hid hk.2) ?_ hk
  intro hb
  have heq : s.seg = a.obj := hb
  rw [heq]
  rfl

/-- The store with which an abort clears the flag shows as the effect of the release. -/
theorem shows_aUnmark (hp : s.pc t = .aUnmark) :
    Shows id j a ((s.setControl j { s.seg.control j with wordHasBeenWritten := false }).moveTo t
      .aUnlock) .silent := by
  have hk := hs.knows t
  rw [hp] at hk
  obtain ⟨hpend, hown⟩ := hk
  refine hs.storeEffect hid hnone hp _ rfl (fun u => hs.alone_of_owns hid hown) hpend
    (applyWord_releaseOwn hown) (.inl rfl) ?_ rfl
  intro hb
  have heq : s.seg = a.obj.setControl j { a.obj.control j with accessSet := NONE } := hb
  simp only [Behind, heq, setControl_control, setControl_setControl]

/-- An access of `read_word` shows as the effect of the read, or as no step. -/
theorem shows_read (he : s.go (id t) j t = some (s', e))
    (hr : s.pc t = .roCopy ∨ s.pc t = .rTest ∨ s.pc t = .rOwner ∨ s.pc t = .rCopy ∨
      s.pc t = .rTestAgain ∨ s.pc t = .rOwnerAgain ∨ s.pc t = .rCopyOwn) :
    Shows id j a s' e := by
  have hk := hs.knows t
  obtain hp | hp | hp | hp | hp | hp | hp := hr <;> rw [hp] at hk <;>
    simp only [WordState.go, hp] at he <;>
    obtain ⟨rfl, rfl⟩ := Prod.mk.inj (Option.some.inj he)
  · -- a read-only transaction
    refine hs.effect hid hnone hp rfl rfl rfl hk applyWord_readOnly ?_
    rw [hs.readOnly_eq hid hnone (t := t) (by rw [hp]; rfl)]
    rfl
  · rw [hs.written_eq hid hnone (t := t) (by rw [hp]; rfl)]
    split
    · rename_i hw
      exact hs.stay hid hnone hp rfl rfl rfl ⟨hk, hw⟩
    · rename_i hw
      exact hs.stay hid hnone hp rfl rfl rfl ⟨hk, by simpa using hw⟩
  · rw [hs.control_of_locked hid hnone (t := t) (by rw [hp]; rfl) (by rw [hp]; rfl)]
    split
    · rename_i ho
      exact hs.stay hid hnone hp rfl rfl rfl ⟨hk.1, hk.2, ho⟩
    · rename_i ho
      exact hs.effect hid hnone hp rfl rfl rfl hk.1 (applyWord_read hk.2 ho) rfl
  · refine hs.stay hid hnone hp rfl rfl rfl ?_
    rw [hs.readOnly_eq hid hnone (t := t) (by rw [hp]; rfl)]
    exact hk
  · rw [hs.written_eq hid hnone (t := t) (by rw [hp]; rfl), if_pos hk.2]
    exact hs.stay hid hnone hp rfl rfl rfl hk
  · rw [hs.control_of_locked hid hnone (t := t) (by rw [hp]; rfl) (by rw [hp]; rfl)]
    split
    · rename_i ho
      exact hs.effect hid hnone hp rfl rfl rfl hk.1 (applyWord_readOwn ⟨ho, hk.2⟩) ⟨rfl, ho, hk.2⟩
    · rename_i ho
      exact hs.effect hid hnone hp rfl rfl rfl hk.1 (applyWord_readRefused hk.2 ho) rfl
  · -- the copy of an owned word is up to date
    have heq : s.seg = a.obj :=
      hs.synced_of_alone (t := t) (by rw [hp]; rfl) fun u => hs.alone_of_owns hid hk.2
    rw [heq]
    exact hs.stay hid hnone hp rfl rfl rfl hk.1

/-- A test of `write_word` shows as the refusal of the write, or as no step. -/
theorem shows_write {v : W} (he : s.go (id t) j t = some (s', e))
    (hr : s.pc t = .wTest v ∨ s.pc t = .wOwner v ∨ s.pc t = .wNone v ∨ s.pc t = .wTx v) :
    Shows id j a s' e := by
  have hk := hs.knows t
  obtain hp | hp | hp | hp := hr <;> rw [hp] at hk <;> simp only [WordState.go, hp] at he <;>
    obtain ⟨rfl, rfl⟩ := Prod.mk.inj (Option.some.inj he)
  · rw [hs.written_eq hid hnone (t := t) (by rw [hp]; rfl)]
    split
    · rename_i hw
      by_cases ho : (a.obj.control j).accessSet = id t
      · exact hs.stay hid hnone hp rfl rfl rfl (.inl ⟨hk, ho, hw⟩)
      · -- written by another transaction: whatever `access_set` will say, the write fails here
        refine hs.effect hid hnone hp rfl rfl rfl hk (applyWord_writeRefused ho ?_) (.inr ⟨rfl, ho⟩)
        intro hc
        rw [hw] at hc
        cases hc
    · rename_i hw
      exact hs.stay hid hnone hp rfl rfl rfl ⟨hk, fun hc => absurd hc hw⟩
  · have hiff := hs.owner_iff hid hnone (t := t) (by rw [hp]; rfl)
    obtain ⟨hpend, hown⟩ | ⟨hdone, hother⟩ := hk
    · rw [if_pos (hiff.mpr hown.1)]
      exact hs.stay hid hnone hp rfl rfl rfl ⟨hpend, hown⟩
    · rw [if_neg fun hc => hother (hiff.mp hc)]
      exact hs.stay hid hnone hp rfl rfl rfl hdone
  · obtain ⟨hpend, hnot⟩ := hk
    rw [hs.control_of_locked hid hnone (t := t) (by rw [hp]; rfl) (by rw [hp]; rfl)]
    split
    · rename_i ho
      exact hs.stay hid hnone hp rfl rfl rfl ⟨hpend, fun hw => (hnot hw).2, ho⟩
    · rename_i ho
      have ho := not_not.mp ho
      refine hs.stay hid hnone hp rfl rfl rfl ⟨hpend, ?_, .inl ho⟩
      rw [← Bool.not_eq_true]
      exact fun hw => (hnot hw).1 ho
  · obtain ⟨hpend, hnot, hsome⟩ := hk
    rw [hs.control_of_locked hid hnone (t := t) (by rw [hp]; rfl) (by rw [hp]; rfl)]
    split
    · rename_i ho
      exact hs.effect hid hnone hp rfl rfl rfl hpend (applyWord_writeRefused ho fun _ => hsome) rfl
    · rename_i ho
      have ho := not_not.mp ho
      refine hs.stay hid hnone hp rfl rfl rfl ⟨hpend, ?_, .inr ho⟩
      rw [← Bool.not_eq_true]
      exact fun hw => hnot hw ho

/-- A test of `abort_transaction_tx` shows as the effect of the release, or as no step. -/
theorem shows_abort (he : s.go (id t) j t = some (s', e))
    (hr : s.pc t = .aOwner ∨ s.pc t = .aTest) : Shows id j a s' e := by
  have hk := hs.knows t
  obtain hp | hp := hr <;> rw [hp] at hk <;> simp only [WordState.go, hp] at he <;>
    obtain ⟨rfl, rfl⟩ := Prod.mk.inj (Option.some.inj he)
  · have hiff := hs.owner_iff hid hnone (t := t) (by rw [hp]; rfl)
    split
    · rename_i ho
      exact hs.stay hid hnone hp rfl rfl rfl ⟨hk, hiff.mp ho⟩
    · rename_i ho
      exact hs.effect hid hnone hp rfl rfl rfl hk
        (applyWord_releaseNothing fun hown => ho (hiff.mpr hown.1)) rfl
  · rw [hs.written_eq hid hnone (t := t) (by rw [hp]; rfl)]
    split
    · rename_i hw
      exact hs.stay hid hnone hp rfl rfl rfl ⟨hk.1, hk.2, hw⟩
    · rename_i hw
      exact hs.effect hid hnone hp rfl rfl rfl hk.1
        (applyWord_releaseNothing fun hown => hw hown.2) rfl

/-- **Every access shows in the atomic word.** -/
theorem shows_go (he : s.go (id t) j t = some (s', e)) : Shows id j a s' e := by
  have hk := hs.knows t
  have hgo := he
  cases hp : s.pc t <;> rw [hp] at hk <;> simp only [WordState.go, hp] at he
  case idle => cases he
  case roCopy | rTest | rOwner | rCopy | rTestAgain | rOwnerAgain | rCopyOwn =>
    exact shows_read hs hid hnone hgo (by simp [hp])
  case rLock => exact hs.acquire hid hnone hp he rfl rfl rfl rfl hk
  case rUnlock | rUnlockAbort => exact hs.release hid hnone hp he rfl rfl rfl rfl hk
  case rUnlockOwn => exact hs.release hid hnone hp he rfl rfl rfl rfl hk
  case rTake =>
    obtain ⟨rfl, rfl⟩ := Prod.mk.inj (Option.some.inj he)
    exact shows_rTake hs hid hnone hp
  case wTest v | wOwner v | wNone v | wTx v =>
    exact shows_write hs hid hnone (v := v) hgo (by simp [hp])
  case wCopy v =>
    obtain ⟨rfl, rfl⟩ := Prod.mk.inj (Option.some.inj he)
    exact shows_wCopy hs hid hnone hp
  case wLock v => exact hs.acquire hid hnone hp he rfl rfl rfl rfl hk
  case wUnlockAbort => exact hs.release hid hnone hp he rfl rfl rfl rfl hk
  case wTake v =>
    obtain ⟨rfl, rfl⟩ := Prod.mk.inj (Option.some.inj he)
    exact shows_wTake hs hid hnone hp
  case wMark v =>
    obtain ⟨rfl, rfl⟩ := Prod.mk.inj (Option.some.inj he)
    exact shows_wMark hs hid hnone hp
  case wUnlock v => exact shows_wUnlock hs hid hnone hp he
  case wCopyFirst v =>
    obtain ⟨rfl, rfl⟩ := Prod.mk.inj (Option.some.inj he)
    exact shows_wCopyFirst hs hid hnone hp
  case aOwner | aTest => exact shows_abort hs hid hnone hgo (by simp [hp])
  case aLock => exact hs.acquire hid hnone hp he rfl rfl rfl rfl hk
  case aClear =>
    obtain ⟨rfl, rfl⟩ := Prod.mk.inj (Option.some.inj he)
    exact shows_aClear hs hid hnone hp
  case aUnmark =>
    obtain ⟨rfl, rfl⟩ := Prod.mk.inj (Option.some.inj he)
    exact shows_aUnmark hs hid hnone hp
  case aUnlock => exact hs.release hid hnone hp he rfl rfl rfl rfl hk
  case returning r =>
    obtain ⟨rfl, rfl⟩ := Prod.mk.inj (Option.some.inj he)
    exact shows_return hs hid hnone hp

end

/-! ## Runs

Along a run of accesses there is a run of the atomic word with the same calls and returns. Its
effects are an order of the operations. -/

/-- Before anybody is at the word it is its atomic object. -/
theorem wordSim_start [DecidableEq τ] (seg : Segment W) :
    WordSim id j (WordState.start seg) (.start seg) :=
  ⟨fun _ => by simp [WordState.start, WordPc.locked], fun _ => rfl, fun _ _ => rfl, fun _ => rfl⟩

/-- **The word operations are atomic.** For every interleaving of the accesses of any
number of transactions to a word there is a run of the atomic word with the same calls and
returns in the same order, in which each operation takes effect at one point between its
call and its return; and when all operations have returned, it leaves the same segment. -/
theorem word_operations_atomic [DecidableEq τ] (hid : Function.Injective id)
    (hnone : ∀ t, id t ≠ NONE) {seg : Segment W} {h : List (WordEvent τ W)} {s : WordState τ W}
    (hr : Run (WordState.step id j) anyStep (WordState.start seg) h s) :
    ∃ h' a, Run (AtomicState.step (applyAt id j)) anyStep (.start seg) h' a ∧
      visible h' = visible h ∧ ((∀ t, s.pc t = .idle) → s.seg = a.obj) := by
  have hstep : ∀ {s s' : WordState τ W} {a act e}, WordSim id j s a →
      s.step id j act = some (s', e) →
      ∃ a', Matches (applyAt id j) a e a' ∧ WordSim id j s' a' := by
    intro s s' a act e hs he
    cases act with
    | call t op =>
      simp only [WordState.step] at he
      split at he
      · rename_i hp
        obtain ⟨rfl, rfl⟩ := Prod.mk.inj (Option.some.inj he)
        exact shows_call hs hid hnone hp
      · cases he
    | go t => exact shows_go hs hid hnone he
  obtain ⟨h', a, hrun, hvis, hs⟩ := Run.linearize _ hstep (wordSim_start seg) hr
  exact ⟨h', a, hrun, hvis, fun hidle => hs.synced fun u => by rw [hidle u]; rfl⟩

end

/-- Two threads, and the transactions they run. -/
def twoIds (t : Bool) : ℕ := if t = true then 0 else 1

/-- Both transactions see the word free at their unlocked test; the first one writes it and
takes its write back, the second one's write is refused in between. -/
def racing : List (WordAction Bool ℕ) :=
  [.call true (.write 5), .go true, .go true, .call false (.write 7), .go false] ++
    List.replicate 4 (.go true) ++ List.replicate 5 (.go false) ++
    [.go true, .go true, .call true .release] ++ List.replicate 7 (.go true)

/-- The calls and returns of the two transactions. -/
def raced : List (WordEvent Bool ℕ) :=
  [.returned true .done, .silent, .silent, .silent, .silent, .silent, .silent,
    .called true .release, .returned true .done, .silent, .returned false .aborted, .silent,
    .silent, .silent, .silent, .silent, .silent, .silent, .silent, .silent,
    .called false (.write 7), .silent, .silent, .called true (.write 5)]

/-- The race of the two transactions has an order. -/
theorem word_operations_atomic_racing :
    ∃ s : WordState Bool ℕ,
      Run (WordState.step twoIds 0) anyStep (WordState.start (initSegment 8 8)) raced s ∧
      ∃ h' a, Run (AtomicState.step (applyAt twoIds 0)) anyStep (.start (initSegment 8 8)) h' a ∧
        visible h' = visible raced ∧ s.seg = a.obj := by
  obtain ⟨s, hr, hidle⟩ : ∃ s,
      Run (WordState.step twoIds 0) anyStep (WordState.start (initSegment 8 8)) raced s ∧
      decide (∀ t, s.pc t = .idle) = true :=
    Run.of_execUnder racing .start (by decide +kernel)
  have hid : Function.Injective twoIds := by
    intro t u
    revert t u
    decide
  obtain ⟨h', a, hrun, hvis, hseg⟩ := word_operations_atomic hid (by decide) hr
  exact ⟨s, hr, h', a, hrun, hvis, hseg (of_decide_eq_true hidle)⟩

end DualStm
