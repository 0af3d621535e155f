import Mathlib.Data.Nat.Notation
import Mathlib.Logic.Function.Basic
import Mathlib.Algebra.Notation.Defs

/-!
# Segments and their words

`segment.c` and the word-level half of `tm.c`. A word has two copies and a
control entry: `word_is_ro` says which copy is the committed one, `access_set`
names the transaction that owns the word for the epoch, `word_has_been_written`
says that the other copy is in use.

Words are of an arbitrary type `W` with an all-zero element, a `memcpy` of
`align` bytes being the assignment of one `W`. The arrays of `segment_t` are
functions of the index; `n_words` bounds the indices that are in use.

The source computes the place of a word as `words_array + index * align`, a product
of two `int`s. Here a word is referred to by its index, whatever that product is; where it
is not an `int`, `Raw` lets the access go anywhere (`Segment.HasOffset`).

`WordInv` is the whole protocol of one word, seen from the epoch: the committed
copy is the epoch-start value, and the written flag, the owner and the writable
copy together hold exactly one transaction's private write, or none.
-/

namespace DualStm

/-- `NONE`, the id of no transaction. -/
def NONE : ℕ := 0xFFFFF

/-- `control_t`, what is known of the accesses to a word in this epoch. -/
structure Control where
  /-- `false`: copy A is the committed one -/
  wordIsRo : Bool
  /-- the transaction that owns the word for the epoch, or `NONE` -/
  accessSet : ℕ
  /-- the writable copy is in use -/
  wordHasBeenWritten : Bool
  deriving DecidableEq

/-- `segment_t`. The control locks are not represented: they make the functions
below atomic. -/
structure Segment (W : Type) where
  /-- one control entry a word -/
  control : ℕ → Control
  /-- the first copy -/
  wordsArrayA : ℕ → W
  /-- the second copy -/
  wordsArrayB : ℕ → W
  /-- the length of the three arrays -/
  nWords : ℕ
  /-- the size of a word in bytes, an `int` in the source; see `Segment.HasOffset` -/
  align : ℕ
  /-- the transaction that freed the segment, or `NONE` -/
  deregistered : ℕ

variable {W : Type}

/-- `read_read_only_copy`: the committed copy of the word at an index. The offset
`index * align` of the word is left to `Raw`. -/
def readReadOnlyCopy (index : ℕ) (seg : Segment W) : W :=
  if (seg.control index).wordIsRo = false then seg.wordsArrayA index
  else seg.wordsArrayB index

/-- `read_writable_copy`: the copy that is not the committed one, its offset left to `Raw`. -/
def readWritableCopy (index : ℕ) (seg : Segment W) : W :=
  if (seg.control index).wordIsRo = false then seg.wordsArrayB index
  else seg.wordsArrayA index

/-- `write_to_correct_copy`: store to the copy that is not the committed one, its offset left
to `Raw`. -/
def writeToCorrectCopy (index : ℕ) (src : W) (seg : Segment W) : Segment W :=
  if (seg.control index).wordIsRo = false then
    { seg with wordsArrayB := Function.update seg.wordsArrayB index src }
  else { seg with wordsArrayA := Function.update seg.wordsArrayA index src }

/-- Store the control entry of the word at an index. -/
def Segment.setControl (seg : Segment W) (index : ℕ) (c : Control) : Segment W :=
  { seg with control := Function.update seg.control index c }

/-- `init_segment`, its allocations succeeding: `calloc` clears both copies and
the control entries. -/
def initSegment [Zero W] (align size : ℕ) : Segment W :=
  { align := align
    nWords := size / align
    deregistered := NONE
    wordsArrayA := fun _ => 0
    wordsArrayB := fun _ => 0
    control := fun _ => { wordIsRo := false, accessSet := NONE, wordHasBeenWritten := false } }

/-- `read_word`: the word read, or `none` for `abort_alloc`. -/
def readWord (segment : Segment W) (tx : ℕ) (readOnlyWord : Bool) (index : ℕ) :
    Option W × Segment W :=
  if readOnlyWord = true then (some (readReadOnlyCopy index segment), segment)
  else
    let control := segment.control index
    if control.wordHasBeenWritten = false then
      -- the first access takes the word, a later one leaves no trace
      let segment := if control.accessSet = NONE then
          segment.setControl index { control with accessSet := tx }
        else segment
      (some (readReadOnlyCopy index segment), segment)
    else if control.wordHasBeenWritten = true ∧ control.accessSet = tx then
      (some (readWritableCopy index segment), segment)
    else (none, segment)

/-- `write_word`: the segment written, or `none` for `abort_alloc`. -/
def writeWord (segment : Segment W) (tx : ℕ) (index : ℕ) (source : W) : Option (Segment W) :=
  let control := segment.control index
  if control.wordHasBeenWritten = true then
    if control.accessSet = tx then some (writeToCorrectCopy index source segment) else none
  else if control.accessSet ≠ NONE ∧ control.accessSet ≠ tx then none
  else
    some (writeToCorrectCopy index source
      (segment.setControl index { control with accessSet := tx, wordHasBeenWritten := true }))

/-- The body of the word loop of `abort_transaction_tx`. The bytes of the
writable copy stay as they are. -/
def releaseWord (segment : Segment W) (tx : ℕ) (i : ℕ) : Segment W :=
  if (segment.control i).accessSet = tx ∧ (segment.control i).wordHasBeenWritten = true then
    segment.setControl i
      { segment.control i with accessSet := NONE, wordHasBeenWritten := false }
  else segment

/-- The body of the word loop of `commit_transcations_in_epoch`. -/
def commitWord (c : Control) : Control :=
  { wordIsRo := if c.wordHasBeenWritten = true then !c.wordIsRo else c.wordIsRo
    wordHasBeenWritten := false
    accessSet := NONE }

/-- The word loop of `commit_transcations_in_epoch` on one segment. -/
def commitSegment (segment : Segment W) : Segment W :=
  { segment with
    control := (List.range segment.nWords).foldl
      (fun control j => Function.update control j (commitWord (control j))) segment.control }

/-! ## One word of a segment

Everything that is done to a word depends on that word alone, so the operations are given on a
word first. What they do in a segment is then what they do at an index. -/

/-- What a segment holds at one index. -/
@[ext] structure Word (W : Type) where
  /-- its control entry -/
  control : Control
  /-- its copy A -/
  copyA : W
  /-- its copy B -/
  copyB : W

/-- The word at an index of the segment. -/
def Segment.word (seg : Segment W) (j : ℕ) : Word W :=
  ⟨seg.control j, seg.wordsArrayA j, seg.wordsArrayB j⟩

/-- The copy of the word that is committed, and read by read-only transactions. -/
def Word.readOnly (w : Word W) : W := if w.control.wordIsRo = false then w.copyA else w.copyB

/-- The copy of the word that the transactions of the epoch write. -/
def Word.writable (w : Word W) : W := if w.control.wordIsRo = false then w.copyB else w.copyA

theorem readReadOnlyCopy_eq (j : ℕ) (seg : Segment W) :
    readReadOnlyCopy j seg = (seg.word j).readOnly := rfl

theorem readWritableCopy_eq (j : ℕ) (seg : Segment W) :
    readWritableCopy j seg = (seg.word j).writable := rfl

/-- What `write_to_correct_copy` does to its word. -/
def Word.store (w : Word W) (src : W) : Word W :=
  if w.control.wordIsRo = false then { w with copyB := src } else { w with copyA := src }

@[simp] theorem Word.store_control (w : Word W) (src : W) :
    (w.store src).control = w.control := by
  unfold Word.store
  split <;> rfl

@[simp] theorem Word.readOnly_store (w : Word W) (src : W) :
    (w.store src).readOnly = w.readOnly := by
  unfold Word.store Word.readOnly
  split <;> simp_all

@[simp] theorem Word.writable_store (w : Word W) (src : W) :
    (w.store src).writable = src := by
  unfold Word.store Word.writable
  split <;> simp_all

section

variable (seg : Segment W) (j k : ℕ)

@[simp] theorem word_setControl_self (c : Control) :
    (seg.setControl j c).word j = { seg.word j with control := c } := by
  simp [Segment.setControl, Segment.word]

theorem word_setControl_ne (c : Control) (hk : k ≠ j) :
    (seg.setControl j c).word k = seg.word k := by
  simp [Segment.setControl, Segment.word, Function.update_of_ne hk]

@[simp] theorem word_writeToCorrectCopy_self (src : W) :
    (writeToCorrectCopy j src seg).word j = (seg.word j).store src := by
  unfold writeToCorrectCopy Word.store
  split <;> simp_all [Segment.word]

theorem word_writeToCorrectCopy_ne (src : W) (hk : k ≠ j) :
    (writeToCorrectCopy j src seg).word k = seg.word k := by
  unfold writeToCorrectCopy
  split <;> simp [Segment.word, Function.update_of_ne hk]

end

end DualStm
