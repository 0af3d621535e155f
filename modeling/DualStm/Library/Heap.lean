import DualStm.Library.Prog
import Mathlib.Data.Nat.Basic

/-!
# A memory that serves one client

Live segments and what their words hold. A word is `stride` bytes, and is known by
the address of its first byte. No address is used twice while its segment lives.
One segment, at `start`, is never given away: what it holds is there from the
beginning.
-/

namespace DualStm

/-- The segments, told by their addresses and sizes, and the words. -/
structure Heap (V : Type) where
  /-- live segments -/
  blocks : List (ℕ × ℕ)
  /-- contents -/
  words : ℕ → V

namespace Heap

variable {V : Type} [Zero V] {stride start a : ℕ} {h : Heap V}

/-- The address is that of a word of the segment. -/
def isWord (stride : ℕ) (block : ℕ × ℕ) (a : ℕ) : Bool :=
  decide (block.1 ≤ a ∧ a < block.1 + block.2 ∧ stride ∣ a - block.1)

/-- The address is that of a word of a live segment. -/
def hasWord (stride : ℕ) (h : Heap V) (a : ℕ) : Bool := h.blocks.any fun b => isWord stride b a

/-- An address above all segments, and above `start`. -/
def fresh (start : ℕ) (h : Heap V) : ℕ :=
  h.blocks.foldr (fun b k => max (b.1 + b.2 + 1) k) (start + 1)

/-- A segment for which the addresses are fresh. -/
def push (start : ℕ) (h : Heap V) (size : ℕ) : Heap V where
  blocks := (h.fresh start, size) :: h.blocks
  words a := if h.fresh start ≤ a then 0 else h.words a

/-- The heap as a memory of words. -/
def memory (stride start : ℕ) : Memory (Heap V) V where
  read h a := if h.hasWord stride a then some (h.words a) else none
  write h a v :=
    if h.hasWord stride a then some { h with words := Function.update h.words a v } else none
  alloc h size := some (h.fresh start, h.push start size)
  free h base :=
    if (h.blocks.find? fun b => b.1 == base).isSome then
      some { h with blocks := h.blocks.eraseP fun b => b.1 == base }
    else none

/-- The segments that may be freed: all but the one at `start`. -/
def Owns (start : ℕ) (h : Heap V) (base size : ℕ) : Prop :=
  base ≠ start ∧ h.blocks.find? (fun b => b.1 == base) = some (base, size)

theorem isWord_iff {b : ℕ × ℕ} :
    isWord stride b a = true ↔ b.1 ≤ a ∧ a < b.1 + b.2 ∧ stride ∣ a - b.1 := decide_eq_true_iff

theorem isWord_word {base size i : ℕ} (hi : i * stride < size) :
    isWord stride (base, size) (base + i * stride) = true :=
  isWord_iff.mpr ⟨Nat.le_add_right _ _, Nat.add_lt_add_left hi _, by
    rw [Nat.add_sub_cancel_left]
    exact Nat.dvd_mul_left _ _⟩

theorem exists_of_isWord {base size : ℕ} (hw : isWord stride (base, size) a = true) :
    ∃ i, i * stride < size ∧ a = base + i * stride := by
  obtain ⟨hle, hlt, i, hi⟩ := isWord_iff.mp hw
  rw [Nat.mul_comm] at hi
  exact ⟨i, by omega, by omega⟩

omit [Zero V] in
theorem lt_fresh : start < h.fresh start ∧ ∀ b ∈ h.blocks, b.1 + b.2 < h.fresh start := by
  obtain ⟨blocks, words⟩ := h
  simp only [fresh]
  induction blocks with
  | nil => simp
  | cons b blocks ih =>
    rw [List.foldr_cons]
    refine ⟨Nat.lt_of_lt_of_le ih.1 (le_max_right _ _), List.forall_mem_cons.mpr ⟨?_, ?_⟩⟩
    · exact Nat.lt_of_lt_of_le (Nat.lt_succ_self _) (le_max_left _ _)
    · intro b' hb'
      exact Nat.lt_of_lt_of_le (ih.2 b' hb') (le_max_right _ _)

theorem read_eq_some {v : V} : (memory stride start).read h a = some v ↔
    h.hasWord stride a = true ∧ h.words a = v := by
  simp [memory]

theorem lawful : (memory stride start : Memory (Heap V) V).Lawful (fun a => a) (Owns start) := by
  refine ⟨?_⟩
  intro h a v hread w
  have ha := (read_eq_some.mp hread).1
  refine ⟨{ h with words := Function.update h.words a w }, if_pos ha,
    read_eq_some.mpr ⟨ha, Function.update_self ..⟩, ?_, fun _ _ hown => hown⟩
  intro b hb
  simp only [memory, Function.update_of_ne hb]
  rfl

theorem lawfulAlloc (hstride : 0 < stride) :
    (memory stride start : Memory (Heap V) V).LawfulAlloc (fun a => a) (Owns start) stride := by
  constructor
  · intro h size
    obtain ⟨hstart, hblocks⟩ := (lt_fresh : start < h.fresh start ∧ _)
    refine ⟨h.fresh start, h.push start size, rfl, by omega, ⟨by omega, by simp [push]⟩, ?_, ?_, ?_,
      ?_⟩
    · intro i hi
      refine read_eq_some.mpr ⟨?_, if_pos (Nat.le_add_right _ _)⟩
      simp only [hasWord, push, List.any_cons, isWord_word hi, Bool.true_or]
    · intro i j _ _ hij
      exact Nat.eq_of_mul_eq_mul_right hstride (Nat.add_left_cancel hij)
    · intro a v hv
      obtain ⟨ha, rfl⟩ := read_eq_some.mp hv
      obtain ⟨b, hb, hab⟩ := List.any_eq_true.mp ha
      have hlt : a < h.fresh start := lt_trans (isWord_iff.mp hab).2.1 (hblocks b hb)
      refine ⟨read_eq_some.mpr ⟨?_, if_neg hlt.not_ge⟩, fun i _ => by omega⟩
      rw [hasWord] at ha ⊢
      simp only [push, List.any_cons, ha, Bool.or_true]
    · intro b n hown
      have hlt := hblocks _ (List.mem_of_find?_eq_some hown.2)
      refine ⟨⟨hown.1, ?_⟩, by omega⟩
      rw [push, List.find?_cons_of_neg (by simp; omega)]
      exact hown.2
  · intro h base size hown
    obtain ⟨-, pre, post, hblocks, hpre⟩ := List.find?_eq_some_iff_append.mp hown.2
    have herase : h.blocks.eraseP (fun b => b.1 == base) = pre ++ post := by
      rw [hblocks, List.eraseP_append_right _ (by simpa using hpre)]
      simp
    refine ⟨{ h with blocks := pre ++ post }, ?_, fun a ha => ?_,
      fun b n hown' hne => ⟨hown'.1, ?_⟩⟩
    · simp [memory, hown.2, herase]
    · have hno : isWord stride (base, size) a = false := by
        by_contra hyes
        obtain ⟨i, hi, heq⟩ := exists_of_isWord (by simpa using hyes)
        exact ha i hi heq
      simp only [memory, hasWord, hblocks, List.any_append, List.any_cons, hno, Bool.false_or]
    · have hfind := hown'.2
      rw [hblocks, List.find?_append, List.find?_cons_of_neg (by simpa using hne.symm),
        ← List.find?_append] at hfind
      exact hfind

end Heap

end DualStm
