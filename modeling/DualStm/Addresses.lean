import DualStm.Region
import Mathlib.Data.LawfulXor.Basic
import Mathlib.Data.Nat.Bitwise
import Mathlib.Algebra.Order.Group.Nat
import Mathlib.Tactic.Ring

/-!
# Virtual addresses

A client that got a segment at an address reaches its words by adding byte
offsets, which `tm_read`, `tm_write` and `tm_free` decode: 16 bits name the word,
the rest the segment. Nothing stops a segment from being longer than that. It then
runs into the addresses of the next one (`words_decode_iff`).
-/

namespace DualStm

/-- `EXTRACT_WORD_INDEX_FROM_VIRT_ADDR` on the `int` that `segment->align` is, stored in
an `int`; `none` for a division by zero. -/
def extractWordIndex (addr align : ℕ) : Option ℤ :=
  if toInt32 align = 0 then none
  else some (toInt32 (((addr &&& 0xFFFF : ℕ) : ℤ).tdiv (toInt32 align)))

/-- The address the client has for the first word of a segment. -/
def segmentAddr (s : ℕ) : ℕ := if s = 0 then getVirtStartAddr else getVirtAddr s

/-- The address the client computes for a word. -/
def wordAddr (s align k : ℕ) : ℕ := (segmentAddr s + k * align) % 2 ^ 64

/-- The address of a word is decoded to this word. -/
def Decodes (s align k : ℕ) : Prop :=
  extractSegIdFromVirtAddr (wordAddr s align k) = s ∧
    extractWordIndex (wordAddr s align k) align = some (k : ℤ)

/-- Every word of the segments in use is decoded, and no two have one address. -/
def WordsDecode (live : Set ℕ) (align : ℕ) (size : ℕ → ℕ) : Prop :=
  (∀ s ∈ live, ∀ k < size s / align, Decodes s align k) ∧
    ∀ s ∈ live, ∀ s' ∈ live, ∀ k < size s / align, ∀ k' < size s' / align,
      wordAddr s align k = wordAddr s' align k' → s = s' ∧ k = k'

/-! ## The fields of an address

A virtual address is the segment in the upper bits and the offset in the lower `SHIFT_SEG`
ones, so both macros give back what was put in as long as the offset stays below 64 KiB. -/

/-- On the alignments that fit an `int` this is the division of naturals. -/
theorem extractWordIndex_eq {addr align : ℕ} (hpos : 0 < align) (hlt : align < 2 ^ 31) :
    extractWordIndex addr align = some (extractWordIndexFromVirtAddr addr align : ℤ) := by
  have hle : (addr &&& 0xFFFF) / align ≤ 0xFFFF :=
    (Nat.div_le_self _ _).trans Nat.and_le_right
  rw [extractWordIndex, toInt32_of_lt hlt, if_neg (by omega), ← Int.ofNat_tdiv,
    toInt32_of_lt (by omega)]
  rfl

section

variable {s j k : ℕ}

/-- The offset and a segment index have no bit in common. -/
theorem offset_or (hs : s < MAX_NUM_SEGMENTS) : VIRT_ADDR_OFFSET ||| s = VIRT_ADDR_OFFSET + s :=
  (Nat.two_pow_add_eq_or_of_lt (i := 27) (b := s) (hs.trans (by decide)) 1).symm

theorem offset_xor (hs : s < MAX_NUM_SEGMENTS) :
    VIRT_ADDR_OFFSET ^^^ (VIRT_ADDR_OFFSET + s) = s := by
  have hxor : VIRT_ADDR_OFFSET + s = VIRT_ADDR_OFFSET ^^^ s := by
    rw [← offset_or hs]
    apply Nat.eq_of_testBit_eq
    intro i
    rw [Nat.testBit_or, Nat.testBit_xor, show VIRT_ADDR_OFFSET = 2 ^ 27 from rfl,
      Nat.testBit_two_pow]
    obtain rfl | hi := eq_or_ne 27 i
    · rw [Nat.testBit_lt_two_pow (hs.trans (by decide))]
      simp
    · simp [hi]
  rw [hxor, xor_cancel_left]

theorem segmentAddr_eq (hs : s < MAX_NUM_SEGMENTS) :
    segmentAddr s = (VIRT_ADDR_OFFSET + s) * 2 ^ 16 := by
  rw [segmentAddr]
  split
  · rename_i h
    rw [h]
    rfl
  · rw [getVirtAddr, offset_or hs, Nat.shiftLeft_eq]

/-- The low bits of an address are those of the offset in the segment. -/
theorem wordAddr_and {align : ℕ} (hs : s < MAX_NUM_SEGMENTS) :
    wordAddr s align k &&& 0xFFFF = k * align % 2 ^ 16 := by
  rw [show (0xFFFF : ℕ) = 2 ^ 16 - 1 from rfl, Nat.and_two_pow_sub_one_eq_mod, wordAddr,
    segmentAddr_eq hs]
  omega

/-- Up to 64 KiB the high bits are those of the segment. -/
theorem wordAddr_shiftRight {align : ℕ} (hs : s < MAX_NUM_SEGMENTS)
    (hk : k * align < 2 ^ 16) : wordAddr s align k >>> 16 = VIRT_ADDR_OFFSET + s := by
  rw [Nat.shiftRight_eq_div_pow, wordAddr, segmentAddr_eq hs]
  simp only [MAX_NUM_SEGMENTS, VIRT_ADDR_OFFSET] at hs ⊢
  omega

/-! ## Words within 64 KiB, and others

A segment whose size fits the offset decodes at each of its words; a longer one runs into the
next segment's addresses, and the first word beyond shows it. -/

/-- A word within the first 64 KiB of its segment is decoded. -/
theorem decodes_of_lt (hs : s < MAX_NUM_SEGMENTS) (hj : j < 32) (hk : k * 2 ^ j < 2 ^ 16) :
    Decodes s (2 ^ j) k := by
  constructor
  · rw [extractSegIdFromVirtAddr, wordAddr_shiftRight hs hk, offset_xor hs]
    apply toInt32_of_lt
    exact hs.trans (by decide)
  · obtain hj | rfl := Nat.lt_succ_iff_lt_or_eq.mp hj
    · have hpos : 0 < 2 ^ j := Nat.two_pow_pos j
      rw [extractWordIndex_eq hpos (Nat.pow_lt_pow_right (by decide) hj),
        extractWordIndexFromVirtAddr, wordAddr_and hs, Nat.mod_eq_of_lt hk,
        Nat.mul_div_cancel _ hpos]
    · -- the alignment is negative as an `int`, and there is only one word
      obtain rfl : k = 0 := by omega
      rw [extractWordIndex, wordAddr_and hs]
      decide

/-- A word at a multiple of 64 KiB is decoded only if it is the first one. -/
theorem eq_zero_of_decodes (hs : s < MAX_NUM_SEGMENTS) (hk : 2 ^ 16 ∣ k * 2 ^ j)
    (hd : Decodes s (2 ^ j) k) : k = 0 := by
  have hidx := hd.2
  rw [extractWordIndex, wordAddr_and hs, Nat.mod_eq_zero_of_dvd hk] at hidx
  split at hidx
  · cases hidx
  · have hzero := Option.some.inj hidx
    rw [Nat.cast_zero, Int.zero_tdiv, show toInt32 0 = 0 by decide] at hzero
    exact_mod_cast hzero.symm

/-- The first word is decoded only if the alignment is not `0` as an `int`. -/
theorem lt_of_decodes (hd : Decodes s (2 ^ j) 0) : j < 32 := by
  by_contra hj
  have hzero : toInt32 ((2 ^ j : ℕ) : ℤ) = 0 := by
    obtain ⟨i, rfl⟩ := Nat.exists_eq_add_of_le (Nat.le_of_not_lt hj)
    rw [toInt32, pow_add, Nat.cast_mul, show ((2 ^ 32 : ℕ) : ℤ) = 2 ^ 32 from rfl, Int.bmod_def]
    omega
  have hidx := hd.2
  rw [extractWordIndex, if_pos hzero] at hidx
  cases hidx

/-- All words of a segment are decoded exactly if it is not longer than 64 KiB, and the
alignment not too large. -/
theorem decodes_iff {n : ℕ} (hs : s < MAX_NUM_SEGMENTS) :
    (∀ k < n + 1, Decodes s (2 ^ j) k) ↔ j < 32 ∧ n * 2 ^ j < 2 ^ 16 := by
  constructor
  · intro h
    refine ⟨lt_of_decodes (h 0 (Nat.succ_pos n)), ?_⟩
    by_contra hn
    -- the word that starts at 64 KiB, or the second one of a larger alignment
    have hdvd : 2 ^ 16 ∣ 2 ^ (16 - j) * 2 ^ j := by
      rw [← pow_add]
      apply pow_dvd_pow
      omega
    have hle : 2 ^ (16 - j) ≤ n := by
      rcases Nat.le_total j 16 with hj | hj
      · apply Nat.le_of_mul_le_mul_right _ (Nat.two_pow_pos j)
        rw [← pow_add, Nat.sub_add_cancel hj]
        exact Nat.le_of_not_lt hn
      · rw [Nat.sub_eq_zero_of_le hj]
        apply Nat.one_le_iff_ne_zero.mpr
        rintro rfl
        rw [Nat.zero_mul] at hn
        exact hn (by decide)
    exact (Nat.two_pow_pos _).ne' (eq_zero_of_decodes hs hdvd (h _ (Nat.lt_succ_of_le hle)))
  · rintro ⟨hj, hn⟩ k hk
    apply decodes_of_lt hs hj
    exact (Nat.mul_le_mul_right _ (Nat.le_of_lt_succ hk)).trans_lt hn

end

/-- **Virtual addresses decode** to the words they are made from, and tell them apart,
exactly if the last word of every segment starts within its first 64 KiB and the
alignment is not `0` as an `int`. -/
theorem words_decode_iff {j : ℕ} {live : Set ℕ} {size : ℕ → ℕ}
    (hlive : ∀ s ∈ live, s < MAX_NUM_SEGMENTS)
    (hsize : ∀ s ∈ live, 0 < size s ∧ 2 ^ j ∣ size s) :
    WordsDecode live (2 ^ j) size ↔
      ∀ s ∈ live, 2 ^ j < 2 ^ 32 ∧ size s - 2 ^ j < 2 ^ 16 := by
  have hiff : ∀ s ∈ live, (∀ k < size s / 2 ^ j, Decodes s (2 ^ j) k) ↔
      2 ^ j < 2 ^ 32 ∧ size s - 2 ^ j < 2 ^ 16 := by
    intro s hs
    obtain ⟨hpos, n, hn⟩ := hsize s hs
    obtain ⟨n, rfl⟩ : ∃ n', n = n' + 1 := by
      apply Nat.exists_eq_succ_of_ne_zero
      rintro rfl
      omega
    rw [hn, Nat.mul_div_cancel_left _ (Nat.two_pow_pos j), decodes_iff (hlive s hs),
      Nat.mul_add_one, Nat.add_sub_cancel, Nat.mul_comm, Nat.pow_lt_pow_iff_right (by decide)]
  constructor
  · rintro ⟨hdec, -⟩ s hs
    exact (hiff s hs).mp (hdec s hs)
  · intro h
    have hdec : ∀ s ∈ live, ∀ k < size s / 2 ^ j, Decodes s (2 ^ j) k := fun s hs =>
      (hiff s hs).mpr (h s hs)
    refine ⟨hdec, ?_⟩
    intro s hs s' hs' k hk k' hk' heq
    -- two words of one address are decoded alike
    obtain ⟨hseg, hword⟩ := hdec s hs k hk
    obtain ⟨hseg', hword'⟩ := hdec s' hs' k' hk'
    rw [heq, hseg'] at hseg
    rw [heq, hword'] at hword
    have hword := Option.some.inj hword
    exact ⟨by exact_mod_cast hseg.symm, by exact_mod_cast hword.symm⟩

/-- Segments of 64 KiB are told apart. -/
theorem words_decode_full : WordsDecode {0, 1} (2 ^ 3) fun _ => 65536 :=
  (words_decode_iff (by simp [MAX_NUM_SEGMENTS]) fun _ _ => by decide).mpr fun _ _ => by decide

/-- A segment with one word more than fits: the address of that word is the address of the
first word of the next segment. -/
theorem words_decode_overlap :
    8192 < 65544 / 8 ∧ wordAddr 0 8 8192 = wordAddr 1 8 0 ∧
      extractSegIdFromVirtAddr (wordAddr 0 8 8192) = 1 ∧
      ¬ WordsDecode {0, 1} 8 fun _ => 65544 := by
  have haddr : wordAddr 0 8 8192 = wordAddr 1 8 0 := by decide +kernel
  refine ⟨by decide, haddr, by decide +kernel, ?_⟩
  intro h
  have := h.2 0 (by simp) 1 (by simp) 8192 (by decide) 0 (by decide) haddr
  omega

end DualStm
