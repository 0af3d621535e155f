import Mathlib.Data.Nat.ModEq
import Mathlib.Logic.Function.Basic
import Mathlib.Tactic.Ring

/-!
# A ring of slots between a producer and a consumer

The producer copies its items into `n` slots, one after the other and around again, place
by place; the consumer copies them out. Each of the two counts the items it is done with.
As long as the producer is at most `n` items ahead, and the consumer behind it, they are
never at the same slot, and the consumer gets every item as it was produced. Who sees to it
that they are is left open: `RingInv` is kept by every single copy.
-/

namespace DualStm

variable {V : Type}

/-- The slots, the items on either side, and how many of them are done. -/
structure Ring (V : Type) where
  /-- the slots, place by place -/
  buffer : ℕ → ℕ → V
  /-- the items of the producer -/
  produced : ℕ → ℕ → V
  /-- the items that the consumer has got -/
  consumed : ℕ → ℕ → V
  /-- how many items are in the slots, or have been -/
  producedUntil : ℕ
  /-- how many items are out again -/
  consumedUntil : ℕ

namespace Ring

/-- The items with another value at one place of one of them. -/
def write (f : ℕ → ℕ → V) (k i : ℕ) (v : V) : ℕ → ℕ → V :=
  Function.update f k (Function.update (f k) i v)

@[simp] theorem write_self (f : ℕ → ℕ → V) (k i : ℕ) (v : V) : write f k i v k i = v := by
  rw [write, Function.update_self, Function.update_self]

theorem write_item_ne {f : ℕ → ℕ → V} {k k' : ℕ} (h : k' ≠ k) (i j : ℕ) (v : V) :
    write f k i v k' j = f k' j := by
  rw [write, Function.update_of_ne h]

theorem write_place_ne {f : ℕ → ℕ → V} {i j : ℕ} (h : j ≠ i) (k : ℕ) (v : V) :
    write f k i v k j = f k j := by
  rw [write, Function.update_self, Function.update_of_ne h]

/-- The producer makes a place of its next item. -/
def fill (b : Ring V) (i : ℕ) (v : V) : Ring V :=
  { b with produced := write b.produced b.producedUntil i v }

/-- The producer copies a place of its item to its slot. -/
def put (n : ℕ) (b : Ring V) (i : ℕ) : Ring V :=
  { b with buffer :=
      write b.buffer (b.producedUntil % n) i (b.produced b.producedUntil i) }

/-- The producer is done with its item. -/
def publish (b : Ring V) : Ring V := { b with producedUntil := b.producedUntil + 1 }

/-- The consumer copies a place of its next item. -/
def get (n : ℕ) (b : Ring V) (i : ℕ) : Ring V :=
  { b with consumed :=
      write b.consumed b.consumedUntil i (b.buffer (b.consumedUntil % n) i) }

/-- The consumer is done with its item. -/
def release (b : Ring V) : Ring V := { b with consumedUntil := b.consumedUntil + 1 }

/-- The producer may go on: there is a slot that the consumer is done with. -/
def HasRoom (n : ℕ) (b : Ring V) : Prop := b.producedUntil < b.consumedUntil + n

/-- The consumer may go on: there is an item that the producer is done with. -/
def HasItem (b : Ring V) : Prop := b.consumedUntil < b.producedUntil

end Ring

/-- The slots hold what is between the two, of the items in the copying the first `x`
and `y` places are done, and what is out is as it was produced. -/
structure RingInv (n len : ℕ) (b : Ring V) (x y : ℕ) : Prop where
  /-- the consumer is behind -/
  le : b.consumedUntil ≤ b.producedUntil
  /-- the producer is at most the length of the ring ahead -/
  room : b.producedUntil ≤ b.consumedUntil + n
  /-- the items between -/
  held : ∀ k i, b.consumedUntil ≤ k → k < b.producedUntil → i < len →
    b.buffer (k % n) i = b.produced k i
  /-- the one that goes in -/
  putting : ∀ i < x, b.buffer (b.producedUntil % n) i = b.produced b.producedUntil i
  /-- the ones that are out -/
  taken : ∀ k i, k < b.consumedUntil → i < len → b.consumed k i = b.produced k i
  /-- the one that goes out -/
  getting : ∀ i < y, b.consumed b.consumedUntil i = b.produced b.consumedUntil i

namespace RingInv

variable {n len x y : ℕ} {b : Ring V}

/-- Two items that are less than `n` apart have different slots. -/
theorem slot_ne {j k : ℕ} (hlt : j < k) (hk : k < j + n) : j % n ≠ k % n := by
  intro heq
  have hdvd : n ∣ k - j := (Nat.modEq_iff_dvd' hlt.le).mp heq
  have hle := Nat.le_of_dvd (by omega) hdvd
  omega

/-- **The two are never at the same slot**, as long as both may go on. -/
theorem apart (hroom : b.HasRoom n) (hitem : b.HasItem) :
    b.consumedUntil % n ≠ b.producedUntil % n :=
  slot_ne hitem hroom

theorem create {f : ℕ → ℕ → V} {g : ℕ → ℕ → V} {k : ℕ → ℕ → V} :
    RingInv n len ⟨f, g, k, 0, 0⟩ 0 0 := by
  refine ⟨le_rfl, Nat.zero_le _, ?_, ?_, ?_, ?_⟩
  · intro j i _ hj _
    exact absurd hj (Nat.not_lt_zero j)
  · intro i hi
    exact absurd hi (Nat.not_lt_zero i)
  · intro j i hj _
    exact absurd hj (Nat.not_lt_zero j)
  · intro i hi
    exact absurd hi (Nat.not_lt_zero i)

/-- An item is made before it goes in. -/
theorem fill (hb : RingInv n len b 0 y) (hy : b.HasItem ∨ y = 0) (i : ℕ) (v : V) :
    RingInv n len (b.fill i v) 0 y := by
  have hold : ∀ k j, k < b.producedUntil →
      Ring.write b.produced b.producedUntil i v k j = b.produced k j :=
    fun k j hk => Ring.write_item_ne hk.ne _ _ _
  refine ⟨hb.le, hb.room, ?_, ?_, ?_, ?_⟩
  · intro k j hc hp hj
    exact (hb.held k j hc hp hj).trans (hold k j hp).symm
  · intro j hj
    exact absurd hj (Nat.not_lt_zero j)
  · intro k j hk hj
    exact (hb.taken k j hk hj).trans (hold k j (hk.trans_le hb.le)).symm
  · intro j hj
    rcases hy with hitem | rfl
    · exact (hb.getting j hj).trans (hold _ j hitem).symm
    · exact absurd hj (Nat.not_lt_zero j)

/-- A place goes in, into a slot that holds nothing. -/
theorem put (hb : RingInv n len b x y) (hroom : b.HasRoom n) :
    RingInv n len (b.put n x) (x + 1) y := by
  refine ⟨hb.le, hb.room, ?_, ?_, hb.taken, hb.getting⟩
  · intro k i hc hp hi
    have hk : k < b.producedUntil := hp
    have hlt : b.producedUntil < b.consumedUntil + n := hroom
    have hslot : k % n ≠ b.producedUntil % n := slot_ne hk (by
      have hc : b.consumedUntil ≤ k := hc
      omega)
    exact (Ring.write_item_ne hslot _ _ _).trans (hb.held k i hc hp hi)
  · intro i hi
    obtain rfl | hne := eq_or_ne i x
    · exact Ring.write_self ..
    · exact (Ring.write_place_ne hne _ _).trans (hb.putting i (by omega))

/-- When the whole item is in, it can be published. -/
theorem publish (hb : RingInv n len b len y) (hroom : b.HasRoom n) :
    RingInv n len b.publish 0 y := by
  have hlt : b.producedUntil < b.consumedUntil + n := hroom
  refine ⟨hb.le.trans (Nat.le_succ _), hlt, ?_, ?_, hb.taken, hb.getting⟩
  · intro k i hc hp hi
    have hp : k < b.producedUntil + 1 := hp
    obtain hk | rfl := (Nat.lt_succ_iff.mp hp).lt_or_eq
    · exact hb.held k i hc hk hi
    · exact hb.putting i hi
  · intro i hi
    exact absurd hi (Nat.not_lt_zero i)

/-- A place goes out, from a slot that holds the item. -/
theorem get (hb : RingInv n len b x y) (hitem : b.HasItem) (hy : y < len) :
    RingInv n len (b.get n y) x (y + 1) := by
  have hheld := hb.held b.consumedUntil y le_rfl hitem hy
  refine ⟨hb.le, hb.room, hb.held, hb.putting, ?_, ?_⟩
  · intro k i hk hi
    have hk : k < b.consumedUntil := hk
    exact (Ring.write_item_ne hk.ne _ _ _).trans (hb.taken k i hk hi)
  · intro i hi
    obtain rfl | hne := eq_or_ne i y
    · exact (Ring.write_self ..).trans hheld
    · exact (Ring.write_place_ne hne _ _).trans (hb.getting i (by omega))

/-- When the whole item is out, its slot can be released. -/
theorem release (hb : RingInv n len b x len) (hitem : b.HasItem) :
    RingInv n len b.release x 0 := by
  have hroom := hb.room
  refine ⟨hitem, ?_, ?_, hb.putting, ?_, ?_⟩
  · show b.producedUntil ≤ b.consumedUntil + 1 + n
    omega
  · intro k i hc hp hi
    have hc : b.consumedUntil + 1 ≤ k := hc
    exact hb.held k i (by omega) hp hi
  · intro k i hk hi
    have hk : k < b.consumedUntil + 1 := hk
    obtain hk | rfl := (Nat.lt_succ_iff.mp hk).lt_or_eq
    · exact hb.taken k i hk hi
    · exact hb.getting i hi
  · intro i hi
    exact absurd hi (Nat.not_lt_zero i)

end RingInv

end DualStm
