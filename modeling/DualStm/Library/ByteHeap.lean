import Mathlib.Data.List.GetD
import Mathlib.Data.List.Pairwise
import Mathlib.Data.Nat.Basic
import Mathlib.Algebra.Group.Nat.Defs

/-!
# A heap of bytes

Blocks of memory and what their bytes hold. An access has to lie within one live block, only
a live block can be freed, and only where no other block is can a new one be placed: where one
of these fails the behaviour is undefined, and the operations return `none`. Addresses have 64
bits, and no block is at `NULL`. What is in a new block is up to the environment.

A word is eight bytes, the least significant one first.
-/

namespace DualStm

/-! ## Bytes

A memory is a function from addresses to bytes. A list of bytes is written at an address, and
read from it, as a whole; two ranges that do not overlap do not see each other. -/

/-- The bytes of a number, the least significant one first. -/
def bytesOf : ℕ → ℕ → List UInt8
  | 0, _ => []
  | n + 1, v => UInt8.ofNat v :: bytesOf n (v / 256)

/-- The number that they are the bytes of. -/
def natOf : List UInt8 → ℕ
  | [] => 0
  | b :: bs => b.toNat + 256 * natOf bs

@[simp] theorem length_bytesOf (n v : ℕ) : (bytesOf n v).length = n := by
  induction n generalizing v with
  | zero => rfl
  | succ n ih => rw [bytesOf, List.length_cons, ih]

theorem natOf_bytesOf (n v : ℕ) : natOf (bytesOf n v) = v % 256 ^ n := by
  induction n generalizing v with
  | zero => exact (Nat.mod_one v).symm
  | succ n ih => rw [bytesOf, natOf, ih, Nat.pow_succ', Nat.mod_mul, UInt8.toNat_ofNat']

/-- The `n` bytes from an address on. -/
def readBytes (m : ℕ → UInt8) (a n : ℕ) : List UInt8 := (List.range n).map fun i => m (a + i)

/-- The memory with other bytes from an address on. -/
def blit (m : ℕ → UInt8) (a : ℕ) (bs : List UInt8) (c : ℕ) : UInt8 :=
  if a ≤ c then bs.getD (c - a) (m c) else m c

section

variable {m m' : ℕ → UInt8} {a b c n : ℕ} {bs : List UInt8}

@[simp] theorem length_readBytes : (readBytes m a n).length = n := by
  rw [readBytes, List.length_map, List.length_range]

theorem readBytes_congr (hm : ∀ c, a ≤ c → c < a + n → m c = m' c) :
    readBytes m a n = readBytes m' a n :=
  List.map_congr_left fun i hi => hm _ (Nat.le_add_right a i)
    (Nat.add_lt_add_left (List.mem_range.mp hi) a)

theorem blit_of_lt (hlt : c < a) : blit m a bs c = m c := if_neg (Nat.not_le.mpr hlt)

theorem blit_of_le (hle : a + bs.length ≤ c) : blit m a bs c = m c := by
  rw [blit, if_pos (Nat.le_of_add_right_le hle), List.getD_eq_default]
  exact Nat.le_sub_of_add_le' hle

theorem readBytes_blit : readBytes (blit m a bs) a bs.length = bs := by
  apply List.ext_getElem length_readBytes
  intro i hi hi'
  simp only [readBytes, List.getElem_map, List.getElem_range, blit]
  rw [if_pos (Nat.le_add_right a i), Nat.add_sub_cancel_left, List.getD_eq_getElem _ _ hi']

theorem readBytes_blit_apart (hapart : a + bs.length ≤ b ∨ b + n ≤ a) :
    readBytes (blit m a bs) b n = readBytes m b n := by
  apply readBytes_congr
  intro c hle hlt
  rcases hapart with hab | hba
  · exact blit_of_le (le_trans hab hle)
  · exact blit_of_lt (lt_of_lt_of_le hlt hba)

end

/-! ## Blocks

A block has a base and a size. Of two blocks that do not overlap at most one has a given byte. -/

/-- A block of memory, by its base and its size. -/
structure ByteBlock where
  /-- where it begins -/
  base : ℕ
  /-- how many bytes it has -/
  size : ℕ
  deriving DecidableEq

namespace ByteBlock

/-- The `n` bytes from `a` on are within the block. -/
def Covers (b : ByteBlock) (a n : ℕ) : Prop := b.base ≤ a ∧ a + n ≤ b.base + b.size

/-- The blocks have no byte and no address in common. -/
def Apart (b b' : ByteBlock) : Prop :=
  b.base ≠ b'.base ∧ (b.base + b.size ≤ b'.base ∨ b'.base + b'.size ≤ b.base)

/-- The block is where blocks can be: not at zero, and within 64 bits. -/
def Inside (b : ByteBlock) : Prop := 0 < b.base ∧ b.base + b.size < 2 ^ 64

instance (b : ByteBlock) (a n : ℕ) : Decidable (b.Covers a n) := inferInstanceAs (Decidable (_ ∧ _))

instance (b b' : ByteBlock) : Decidable (b.Apart b') := inferInstanceAs (Decidable (_ ∧ _))

instance (b : ByteBlock) : Decidable b.Inside := inferInstanceAs (Decidable (_ ∧ _))

instance : Std.Symm Apart := ⟨fun _ _ h => ⟨h.1.symm, h.2.symm⟩⟩

theorem covers_self (b : ByteBlock) : b.Covers b.base b.size := ⟨le_rfl, le_rfl⟩

/-- Accesses to two blocks have no byte in common. -/
theorem Apart.covers {b b' : ByteBlock} {a n a' n' : ℕ} (h : b.Apart b') (hb : b.Covers a n)
    (hb' : b'.Covers a' n') : a + n ≤ a' ∨ a' + n' ≤ a := by
  rcases h.2 with hle | hle
  · exact .inl (le_trans hb.2 (le_trans hle hb'.1))
  · exact .inr (le_trans hb'.2 (le_trans hle hb.1))

end ByteBlock

/-! ## The heap

The live blocks are inside and do not overlap, which the heap carries as fields. An access that
is in no live block has no result. -/

/-- A heap of bytes: its live blocks, what they hold, and the blocks that were freed. -/
structure ByteHeap where
  /-- the live blocks -/
  live : List ByteBlock
  /-- what the bytes hold -/
  bytes : ℕ → UInt8
  /-- the blocks released, the last one first -/
  freed : List ByteBlock
  /-- no two live blocks overlap -/
  apart : live.Pairwise ByteBlock.Apart
  /-- live blocks are where blocks can be -/
  inside : ∀ b ∈ live, b.Inside

namespace ByteHeap

/-- A new block can be placed here, apart from the live ones. -/
def Fresh (h : ByteHeap) (b : ByteBlock) : Prop := b.Inside ∧ ∀ b' ∈ h.live, b.Apart b'

instance (h : ByteHeap) (b : ByteBlock) : Decidable (h.Fresh b) :=
  inferInstanceAs (Decidable (_ ∧ _))

/-- Place a new block, with anything in it. -/
def alloc (h : ByteHeap) (b : ByteBlock) (junk : ℕ → UInt8) : Option ByteHeap :=
  if hf : h.Fresh b then
    some
      { live := b :: h.live
        bytes := fun c => if b.Covers c 1 then junk c else h.bytes c
        freed := h.freed
        apart := List.pairwise_cons.mpr ⟨hf.2, h.apart⟩
        inside := List.forall_mem_cons.mpr ⟨hf.1, h.inside⟩ }
  else none

/-- Release the block that begins here. -/
def free (h : ByteHeap) (base : ℕ) : Option ByteHeap :=
  match h.live.find? fun b => b.base == base with
  | none => none
  | some b =>
    some
      { live := h.live.eraseP fun b => b.base == base
        bytes := h.bytes
        freed := b :: h.freed
        apart := h.apart.sublist List.eraseP_sublist
        inside := fun b hb => h.inside b (List.mem_of_mem_eraseP hb) }

/-- The bytes are within a live block. -/
def Valid (h : ByteHeap) (a n : ℕ) : Prop := ∃ b ∈ h.live, b.Covers a n

instance (h : ByteHeap) (a n : ℕ) : Decidable (h.Valid a n) :=
  inferInstanceAs (Decidable (∃ b ∈ h.live, _))

/-- Read bytes, if a live block has them. -/
def load (h : ByteHeap) (a n : ℕ) : Option (List UInt8) :=
  if h.Valid a n then some (readBytes h.bytes a n) else none

/-- Write bytes, if a live block has them. -/
def store (h : ByteHeap) (a : ℕ) (bs : List UInt8) : Option ByteHeap :=
  if h.Valid a bs.length then some { h with bytes := blit h.bytes a bs } else none

/-- Read a word of eight bytes. -/
def load64 (h : ByteHeap) (a : ℕ) : Option UInt64 :=
  (h.load a 8).map fun bs => UInt64.ofNat (natOf bs)

/-- Write a word of eight bytes. -/
def store64 (h : ByteHeap) (a : ℕ) (v : UInt64) : Option ByteHeap := h.store a (bytesOf 8 v.toNat)

section

variable {h h' : ByteHeap} {b b' : ByteBlock} {a c n : ℕ} {bs : List UInt8} {v : UInt64}
  {junk : ℕ → UInt8}

/-- Two live blocks are the same or apart. -/
theorem apart_of_mem (hb : b ∈ h.live) (hb' : b' ∈ h.live) (hne : b ≠ b') : b.Apart b' :=
  h.apart.forall hb hb' hne

theorem eq_of_base_eq (hb : b ∈ h.live) (hb' : b' ∈ h.live) (heq : b.base = b'.base) : b = b' := by
  by_contra hne
  exact (apart_of_mem hb hb' hne).1 heq

/-- No live block is listed twice. -/
theorem nodup_live (h : ByteHeap) : h.live.Nodup :=
  h.apart.imp fun hapart heq => hapart.1 (congrArg ByteBlock.base heq)

/-! ### Accesses

What is read is what was written there last. A store changes no block, and no byte outside its
range. -/

theorem Valid.store (hv : h.Valid a bs.length) :
    h.store a bs = some { h with bytes := blit h.bytes a bs } := if_pos hv

theorem Valid.store64 (hv : h.Valid a 8) :
    h.store64 a v = some { h with bytes := blit h.bytes a (bytesOf 8 v.toNat) } :=
  if_pos (by rwa [length_bytesOf])

theorem valid_congr (hl : h'.live = h.live) : h'.Valid a n ↔ h.Valid a n := by
  rw [Valid, Valid, hl]

/-- A word reads the same where the same bytes are live. -/
theorem load64_congr (hv : h'.Valid a 8 ↔ h.Valid a 8)
    (hb : readBytes h'.bytes a 8 = readBytes h.bytes a 8) : h'.load64 a = h.load64 a := by
  simp only [load64, load, hv, hb]

/-- A store has a result if a live block has its range, and it changes the bytes only. -/
theorem store_eq_some (hs : h.store a bs = some h') :
    h.Valid a bs.length ∧ h'.live = h.live ∧ h'.freed = h.freed ∧ h'.bytes = blit h.bytes a bs := by
  rw [ByteHeap.store] at hs
  split at hs
  · rename_i hv
    obtain rfl := Option.some.inj hs
    exact ⟨hv, rfl, rfl, rfl⟩
  · cases hs

/-- What was written is read. -/
theorem load_store (hs : h.store a bs = some h') : h'.load a bs.length = some bs := by
  obtain ⟨hv, hlive, -, hbytes⟩ := store_eq_some hs
  rw [load, if_pos ((valid_congr hlive).mpr hv), hbytes, readBytes_blit]

theorem load64_store64 (hs : h.store64 a v = some h') : h'.load64 a = some v := by
  have hload := load_store hs
  have hlt : v.toNat < 256 ^ 8 := lt_of_lt_of_eq v.toNat_lt (by decide)
  rw [length_bytesOf] at hload
  rw [load64, hload, Option.map_some, natOf_bytesOf, Nat.mod_eq_of_lt hlt, UInt64.ofNat_toNat]

/-- A word that was not written over is what it was before. -/
theorem load64_store64_apart (hs : h.store64 a v = some h') (hapart : a + 8 ≤ c ∨ c + 8 ≤ a) :
    h'.load64 c = h.load64 c := by
  obtain ⟨-, hlive, -, hbytes⟩ := store_eq_some hs
  apply load64_congr (valid_congr hlive)
  rw [hbytes, readBytes_blit_apart]
  rwa [length_bytesOf]

/-! ### Blocks that come and go

A block that is placed is apart from the others, and one that is freed leaves the others as
they are. Neither changes a byte of theirs. -/

theorem alloc_eq_some (hs : h.alloc b junk = some h') :
    h.Fresh b ∧ h'.live = b :: h.live ∧ h'.freed = h.freed ∧
      ∀ c, (∃ b' ∈ h.live, b'.Covers c 1) → h'.bytes c = h.bytes c := by
  rw [alloc] at hs
  split at hs
  · rename_i hf
    obtain rfl := Option.some.inj hs
    refine ⟨hf, rfl, rfl, ?_⟩
    rintro c ⟨b', hb', hc⟩
    apply if_neg
    intro hc'
    have hno := (hf.2 b' hb').covers hc' hc
    omega
  · cases hs

theorem Fresh.alloc (hf : h.Fresh b) (junk : ℕ → UInt8) : ∃ h', h.alloc b junk = some h' :=
  ⟨_, dif_pos hf⟩

/-- A live block can be freed, and is then among the freed ones. -/
theorem free_of_mem (hb : b ∈ h.live) :
    ∃ h', h.free b.base = some h' ∧ h'.live = h.live.eraseP (fun b' => b'.base == b.base) ∧
      h'.bytes = h.bytes ∧ h'.freed = b :: h.freed := by
  rw [free]
  cases hfind : h.live.find? fun b' => b'.base == b.base with
  | none =>
    have hno := List.find?_eq_none.mp hfind b hb
    exact absurd (beq_self_eq_true b.base) hno
  | some b' =>
    obtain rfl : b' = b := eq_of_base_eq (List.mem_of_find?_eq_some hfind) hb
      (beq_iff_eq.mp (List.find?_some hfind :))
    exact ⟨_, rfl, rfl, rfl, rfl⟩


theorem free_of_head {rest : List ByteBlock} (hl : h.live = b :: rest) :
    ∃ h', h.free b.base = some h' ∧ h'.live = rest ∧ h'.bytes = h.bytes ∧
      h'.freed = b :: h.freed := by
  obtain ⟨h', hs, hlive, hbytes, hfreed⟩ := free_of_mem (hl ▸ List.mem_cons_self)
  refine ⟨h', hs, ?_, hbytes, hfreed⟩
  rw [hlive, hl]
  exact List.eraseP_cons_of_pos (beq_self_eq_true _)

end

end ByteHeap

end DualStm
