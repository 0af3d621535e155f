import DualStm.Bank
import Mathlib.Algebra.BigOperators.Group.List.Basic
import Mathlib.Algebra.Order.Ring.Int
import Mathlib.Data.List.Flatten
import Mathlib.Tactic.Ring

/-!
# The list of accounts

What the bank keeps in the shared memory: a linked list of segments (`Linked`),
all balances non-negative, and the balances with the parities adding up to the
initial balance times the number of accounts (`Solvent`).

The words a segment uses are told by its `Block`. A function `f` from addresses
to words stands for the memory; how it changes is then a `Function.update`.
-/

namespace DualStm

/-- A segment of accounts in the shared memory. -/
structure Block where
  /-- its address -/
  addr : ℕ
  /-- how many accounts there is room for -/
  room : ℕ
  /-- how many there are -/
  count : ℕ

namespace Block

variable (b : Block)

/-- The fields of the block's segment, as `AccountSegment` computes them from its address. -/
def segment : AccountSegment := .ofAddress b.addr

/-- The two words of a segment that make the list: how many accounts it has, and the next
segment. -/
def links : List ℕ := [b.segment.count, b.segment.next]

/-- The addresses of the accounts that the segment has, not of those it has room for. -/
def accounts : List ℕ := (List.range b.count).map b.segment.account

/-- The words of a segment that hold money: its parity and its accounts. -/
def holders : List ℕ := b.segment.parity :: b.accounts

/-- All words of the segment, those without an account yet included. -/
def cells : List ℕ :=
  b.segment.count :: b.segment.next :: b.segment.parity ::
    (List.range b.room).map b.segment.account

@[simp] theorem segment_count : b.segment.count = b.addr := rfl
@[simp] theorem segment_next : b.segment.next = b.addr + 8 := rfl
@[simp] theorem segment_parity : b.segment.parity = b.addr + 16 := rfl
@[simp] theorem segment_account (i : ℕ) : b.segment.account i = b.addr + 24 + i * 8 := rfl

variable {b}

/-- Two accounts of a segment are distinct words. -/
theorem account_ne {i j : ℕ} (hij : i ≠ j) : b.segment.account i ≠ b.segment.account j := by
  simp only [segment_account]
  omega

theorem account_ne_count (i : ℕ) : b.segment.account i ≠ b.segment.count := by
  simp only [segment_account, segment_count]
  omega

theorem account_ne_next (i : ℕ) : b.segment.account i ≠ b.segment.next := by
  simp only [segment_account, segment_next]
  omega

theorem account_ne_parity (i : ℕ) : b.segment.account i ≠ b.segment.parity := by
  simp only [segment_account, segment_parity]
  omega

theorem account_mem_cells {i : ℕ} (hi : i < b.room) : b.segment.account i ∈ b.cells := by
  simp [cells, hi]

theorem holders_subset (hb : b.count ≤ b.room) {a : ℕ} (ha : a ∈ b.holders) : a ∈ b.cells := by
  rcases List.mem_cons.mp ha with rfl | ha
  · simp [cells]
  · obtain ⟨i, hi, rfl⟩ := List.mem_map.mp ha
    exact account_mem_cells ((List.mem_range.mp hi).trans_le hb)

theorem links_subset {a : ℕ} (ha : a ∈ b.links) : a ∈ b.cells := by
  rcases List.mem_cons.mp ha with rfl | ha
  · simp [cells]
  · obtain rfl := List.mem_singleton.mp ha
    simp [cells]

theorem holders_nodup : b.holders.Nodup := by
  rw [holders, List.nodup_cons]
  refine ⟨?_, List.Nodup.map ?_ List.nodup_range⟩
  · intro hmem
    obtain ⟨i, -, hi⟩ := List.mem_map.mp hmem
    exact account_ne_parity i hi
  · intro i j h
    by_contra hij
    exact account_ne hij h

theorem not_links_of_holders {a : ℕ} (ha : a ∈ b.holders) : a ∉ b.links := by
  have hge : b.addr + 16 ≤ a := by
    rcases List.mem_cons.mp ha with rfl | ha
    · exact le_rfl
    · obtain ⟨i, -, rfl⟩ := List.mem_map.mp ha
      simp only [segment_account]
      omega
  intro hl
  simp only [links, segment_count, segment_next, List.mem_cons, List.not_mem_nil, or_false] at hl
  omega

/-- The words of a segment follow one another, so a segment is one block of `3 + room` words. -/
theorem cells_eq : b.cells = (List.range (3 + b.room)).map fun i => b.addr + i * WORD_SIZE := by
  rw [List.range_add, List.map_append, List.map_map]
  have h3 : List.range 3 = [0, 1, 2] := rfl
  rw [h3]
  simp only [cells, List.map_cons, List.map_nil, List.cons_append, List.nil_append, WORD_SIZE,
    segment_count, segment_next, segment_parity]
  congr 3
  apply List.map_congr_left
  intro i _
  simp only [segment_account, Function.comp]
  omega

end Block

/-- The words of all segments of a list. -/
def cells (blocks : List Block) : List ℕ := blocks.flatMap Block.cells

/-- The words of all segments that make the list. -/
def links (blocks : List Block) : List ℕ := blocks.flatMap Block.links

/-- The addresses of all accounts, in the order in which a walk over the list comes to them. -/
def accounts (blocks : List Block) : List ℕ := blocks.flatMap Block.accounts

/-- The words of all segments that hold money. -/
def holders (blocks : List Block) : List ℕ := blocks.flatMap Block.holders

/-- The number of accounts of a whole list of segments. -/
def totalCount (blocks : List Block) : ℕ := (blocks.map Block.count).sum

/-- All the money: balances and parities. -/
def money (f : ℕ → ℤ) (blocks : List Block) : ℤ := ((holders blocks).map f).sum

/-- The segments are linked, from the address `start` to the address `stop`. -/
def Linked (f : ℕ → ℤ) : ℕ → List Block → ℕ → Prop
  | start, [], stop => start = stop
  | start, b :: blocks, stop => start = b.addr ∧ b.addr ≠ 0 ∧ f b.segment.count = b.count ∧
      ∃ next : ℕ, f b.segment.next = next ∧ Linked f next blocks stop

/-- No segment has more accounts than it has room for. -/
def Fits (blocks : List Block) : Prop := ∀ b ∈ blocks, b.count ≤ b.room

/-- **The law of the bank.** The segments are linked from `start` on and have no more accounts
than they have room for, no account is overdrawn, and the money is `initBalance` for each
account. -/
structure Solvent (initBalance : ℤ) (start : ℕ) (f : ℕ → ℤ) (blocks : List Block) : Prop where
  /-- the segments make a list, which ends -/
  linked : Linked f start blocks 0
  /-- the accounts are in their segments -/
  fits : Fits blocks
  /-- no account is overdrawn -/
  nonneg : ∀ a ∈ accounts blocks, 0 ≤ f a
  /-- no money is lost or made -/
  balanced : money f blocks = initBalance * totalCount blocks

/-! ## Words of lists

The words of a list of segments are the words of its segments, one after the other. So what is
known of one segment (its words are distinct, its accounts are among them) is known of a list. -/

section

variable {blocks pre post : List Block} {b : Block} {a : ℕ}

@[simp] theorem cells_append : cells (pre ++ post) = cells pre ++ cells post :=
  List.flatMap_append

@[simp] theorem cells_cons : cells (b :: blocks) = b.cells ++ cells blocks := rfl

@[simp] theorem holders_append : holders (pre ++ post) = holders pre ++ holders post :=
  List.flatMap_append

@[simp] theorem holders_cons : holders (b :: blocks) = b.holders ++ holders blocks := rfl

@[simp] theorem accounts_append : accounts (pre ++ post) = accounts pre ++ accounts post :=
  List.flatMap_append

@[simp] theorem accounts_cons : accounts (b :: blocks) = b.accounts ++ accounts blocks := rfl

theorem totalCount_append : totalCount (pre ++ post) = totalCount pre + totalCount post := by
  simp [totalCount]

theorem totalCount_cons : totalCount (b :: blocks) = b.count + totalCount blocks := rfl

theorem cells_subset (hb : b ∈ blocks) (ha : a ∈ b.cells) : a ∈ cells blocks :=
  List.mem_flatMap.mpr ⟨b, hb, ha⟩

theorem accounts_mem (hb : b ∈ blocks) (ha : a ∈ b.accounts) : a ∈ accounts blocks :=
  List.mem_flatMap.mpr ⟨b, hb, ha⟩

theorem accounts_subset (ha : a ∈ accounts blocks) : a ∈ holders blocks := by
  obtain ⟨b, hb, ha⟩ := List.mem_flatMap.mp ha
  exact List.mem_flatMap.mpr ⟨b, hb, List.mem_cons_of_mem _ ha⟩

theorem holders_subset (hfit : Fits blocks) (ha : a ∈ holders blocks) : a ∈ cells blocks := by
  obtain ⟨b, hb, ha⟩ := List.mem_flatMap.mp ha
  exact cells_subset hb (Block.holders_subset (hfit b hb) ha)

theorem links_subset (ha : a ∈ links blocks) : a ∈ cells blocks := by
  obtain ⟨b, hb, ha⟩ := List.mem_flatMap.mp ha
  exact cells_subset hb (Block.links_subset ha)

theorem Fits.tail (hfit : Fits (b :: blocks)) : Fits blocks := fun b' hb' =>
  hfit b' (List.mem_cons_of_mem _ hb')

theorem Fits.head (hfit : Fits (b :: blocks)) : b.count ≤ b.room := hfit b List.mem_cons_self

theorem holders_nodup (hn : (cells blocks).Nodup) (hfit : Fits blocks) :
    (holders blocks).Nodup := by
  induction blocks with
  | nil => exact List.nodup_nil
  | cons b blocks ih =>
    rw [cells_cons, List.nodup_append] at hn
    rw [holders_cons, List.nodup_append]
    refine ⟨Block.holders_nodup, ih hn.2.1 hfit.tail, ?_⟩
    intro a ha a' ha'
    exact hn.2.2 a (Block.holders_subset hfit.head ha) a' (holders_subset hfit.tail ha')

/-- The words that hold money are not those that make the list. -/
theorem not_links_of_holders (hn : (cells blocks).Nodup) (hfit : Fits blocks)
    (ha : a ∈ holders blocks) : a ∉ links blocks := by
  induction blocks with
  | nil => cases ha
  | cons b blocks ih =>
    rw [cells_cons, List.nodup_append] at hn
    intro hl
    rcases List.mem_append.mp (holders_cons ▸ ha) with ha | ha <;>
      rcases List.mem_append.mp (show a ∈ b.links ++ links blocks from hl) with hl | hl
    · exact Block.not_links_of_holders ha hl
    · exact hn.2.2 a (Block.holders_subset hfit.head ha) a (links_subset hl) rfl
    · exact hn.2.2 a (Block.links_subset hl) a (holders_subset hfit.tail ha) rfl
    · exact ih hn.2.1 hfit.tail ha hl

end

/-! ## Lists and their ends

A walk follows `next` and a transaction changes the list at its end, so `Linked` is cut where
the walk stands and where a segment is put in or taken out. -/

section

variable {f g : ℕ → ℤ} {start stop : ℕ} {blocks pre post : List Block} {b : Block}

theorem linked_append : Linked f start (pre ++ post) stop ↔
    ∃ mid, Linked f start pre mid ∧ Linked f mid post stop := by
  induction pre generalizing start with
  | nil => simp [Linked]
  | cons b pre ih =>
    simp only [List.cons_append, Linked, ih]
    constructor
    · rintro ⟨rfl, hne, hcount, next, hnext, mid, hpre, hpost⟩
      exact ⟨mid, ⟨rfl, hne, hcount, next, hnext, hpre⟩, hpost⟩
    · rintro ⟨mid, ⟨rfl, hne, hcount, next, hnext, hpre⟩, hpost⟩
      exact ⟨rfl, hne, hcount, next, hnext, mid, hpre, hpost⟩

theorem linked_congr (h : Linked f start blocks stop) (hfg : ∀ a ∈ links blocks, f a = g a) :
    Linked g start blocks stop := by
  induction blocks generalizing start with
  | nil => exact h
  | cons b blocks ih =>
    obtain ⟨hstart, hne, hcount, next, hnext, hrest⟩ := h
    refine ⟨hstart, hne, ?_, next, ?_, ih hrest ?_⟩
    · rw [← hfg _ List.mem_cons_self, hcount]
    · rw [← hfg _ (List.mem_cons_of_mem _ List.mem_cons_self), hnext]
    · intro a ha
      exact hfg a (List.mem_append_right _ ha)

/-- A list that is linked from `start` on has its first segment there. -/
theorem Linked.head (h : Linked f start (b :: post) stop) : start = b.addr := h.1

end

/-! ## Money

Money is a sum over the words that hold it. It changes by what one of them changes, and a
function that agrees on these words has the same money. -/

section

variable {f g : ℕ → ℤ} {blocks pre post : List Block} {b : Block} {p : ℕ} {v : ℤ}

theorem money_append : money f (pre ++ post) = money f pre + money f post := by
  simp [money]

theorem money_cons : money f (b :: blocks) = (b.holders.map f).sum + money f blocks := by
  simp [money]

theorem money_congr (hfg : ∀ a ∈ holders blocks, f a = g a) : money f blocks = money g blocks := by
  rw [money, money, List.map_congr_left hfg]

theorem sum_update {l : List ℕ} (hn : l.Nodup) (hp : p ∈ l) :
    (l.map (Function.update f p v)).sum = (l.map f).sum - f p + v := by
  induction l with
  | nil => cases hp
  | cons a l ih =>
    rw [List.nodup_cons] at hn
    rw [List.map_cons, List.sum_cons, List.map_cons, List.sum_cons]
    rcases List.mem_cons.mp hp with rfl | hp
    · have hrest : l.map (Function.update f p v) = l.map f :=
        List.map_congr_left fun a ha => Function.update_of_ne (by
          rintro rfl
          exact hn.1 ha) _ _
      rw [hrest, Function.update_self]
      ring
    · have hne : a ≠ p := by
        rintro rfl
        exact hn.1 hp
      rw [ih hn.2 hp, Function.update_of_ne hne]
      ring

/-- A deposit or a withdrawal changes the money by what the word changes, if no word is counted
twice. -/
theorem money_update (hn : (cells blocks).Nodup) (hfit : Fits blocks) (hp : p ∈ holders blocks) :
    money (Function.update f p v) blocks = money f blocks - f p + v :=
  sum_update (holders_nodup hn hfit) hp

end

/-! ## A transfer

The only thing that happens to accounts after they are made: one unit goes from one to another.
It keeps the law, since the sender has the unit it gives. -/

/-- The accounts differ by a transfer: one unit goes from an account that has it to another or
to itself, or nothing happens. -/
def Transfers (blocks : List Block) (f f' : ℕ → ℤ) : Prop :=
  f' = f ∨ ∃ p ∈ accounts blocks, ∃ q ∈ accounts blocks, 0 < f p ∧
    f' = Function.update (Function.update f p (f p - 1)) q
      (Function.update f p (f p - 1) q + 1)

theorem Solvent.transfers {initBalance : ℤ} {start : ℕ} {f f' : ℕ → ℤ} {blocks : List Block}
    (hs : Solvent initBalance start f blocks) (hn : (cells blocks).Nodup)
    (ht : Transfers blocks f f') :
    Solvent initBalance start f' blocks := by
  rcases ht with rfl | ⟨p, hp, q, hq, hpos, rfl⟩
  · exact hs
  · set g := Function.update f p (f p - 1) with hg
    have hlinks : ∀ {r : ℕ}, r ∈ accounts blocks → ∀ a ∈ links blocks, a ≠ r := by
      rintro r hr a ha rfl
      exact not_links_of_holders hn hs.fits (accounts_subset hr) ha
    have hnonneg : ∀ a ∈ accounts blocks, 0 ≤ g a := by
      intro a ha
      obtain rfl | hap := eq_or_ne a p
      · rw [hg, Function.update_self]
        omega
      · rw [hg, Function.update_of_ne hap]
        exact hs.nonneg a ha
    refine ⟨linked_congr hs.linked ?_, hs.fits, ?_, ?_⟩
    · intro a ha
      rw [Function.update_of_ne (hlinks hq a ha), hg, Function.update_of_ne (hlinks hp a ha)]
    · intro a ha
      obtain rfl | haq := eq_or_ne a q
      · rw [Function.update_self]
        have := hnonneg a ha
        omega
      · rw [Function.update_of_ne haq]
        exact hnonneg a ha
    · rw [money_update hn hs.fits (accounts_subset hq), hg,
        money_update hn hs.fits (accounts_subset hp), ← hs.balanced]
      ring

/-- The law speaks of the words of the list only, so a function that agrees on these is as
solvent. -/
theorem Solvent.congr {initBalance : ℤ} {start : ℕ} {f g : ℕ → ℤ} {blocks : List Block}
    (hs : Solvent initBalance start f blocks) (hfg : ∀ a ∈ cells blocks, f a = g a) :
    Solvent initBalance start g blocks := by
  have hhold : ∀ a ∈ holders blocks, f a = g a := fun a ha => hfg a (holders_subset hs.fits ha)
  refine ⟨linked_congr hs.linked fun a ha => hfg a (links_subset ha), hs.fits, fun a ha => ?_, ?_⟩
  · rw [← hhold a (accounts_subset ha)]
    exact hs.nonneg a ha
  · rw [← money_congr hhold]
    exact hs.balanced

/-! ## Transfers side by side

Transactions that do not see each other may each have checked an account that the other one
empties. The law is kept as long as no two of them write the same word. -/

section

variable {f f' g : ℕ → ℤ} {blocks : List Block} {p q a : ℕ}

/-- A transfer adds one at the receiver and takes one away at the sender, also when these are
one word. -/
theorem transfer_apply : Function.update (Function.update f p (f p - 1)) q
    (Function.update f p (f p - 1) q + 1) a =
      f a + (if a = q then 1 else 0) - (if a = p then 1 else 0) := by
  obtain rfl | haq := eq_or_ne a q
  · rw [Function.update_self, if_pos rfl]
    obtain rfl | hap := eq_or_ne a p
    · rw [Function.update_self, if_pos rfl]
      ring
    · rw [Function.update_of_ne hap, if_neg hap]
      ring
  · rw [Function.update_of_ne haq, if_neg haq]
    obtain rfl | hap := eq_or_ne a p
    · rw [Function.update_self, if_pos rfl]
      ring
    · rw [Function.update_of_ne hap, if_neg hap]
      ring

/-- A memory with some words written over. -/
def merged (f : ℕ → ℤ) (w : ℕ → Option ℤ) (a : ℕ) : ℤ := (w a).getD (f a)

/-- Writes that make a transfer make one on any memory that has the same in the
words they write. -/
theorem Transfers.move {w : ℕ → Option ℤ} (ht : Transfers blocks f g) (hfit : Fits blocks)
    (hg : ∀ a ∈ cells blocks, g a = merged f w a)
    (hw : ∀ a ∈ cells blocks, w a ≠ none → f' a = f a) :
    ∃ g', (∀ a ∈ cells blocks, g' a = merged f' w a) ∧ Transfers blocks f' g' := by
  -- the writes change a word of `f'` by what they change in `f`
  have hdelta : ∀ a ∈ cells blocks, merged f' w a - f' a = g a - f a := by
    intro a ha
    rw [hg a ha, merged, merged]
    rcases hwa : w a with _ | v
    · simp
    · rw [hw a ha (by rw [hwa]; simp)]
  rcases ht with rfl | ⟨p, hp, q, hq, hpos, rfl⟩
  · refine ⟨f', ?_, .inl rfl⟩
    intro a ha
    have := hdelta a ha
    omega
  · have hpc := holders_subset hfit (accounts_subset hp)
    simp only [transfer_apply] at hg hdelta
    obtain rfl | hpq := eq_or_ne p q
    · refine ⟨f', ?_, .inl rfl⟩
      intro a ha
      have := hdelta a ha
      omega
    · refine ⟨_, ?_, .inr ⟨p, hp, q, hq, ?_, rfl⟩⟩
      · intro a ha
        rw [transfer_apply]
        have := hdelta a ha
        omega
      · -- the sender's account is written
        rw [hw p hpc fun hnone => ?_]
        · exact hpos
        · have := hg p hpc
          rw [merged, hnone, if_neg hpq, if_pos rfl, Option.getD_none] at this
          omega

/-- **Transfers side by side.** Any number of parties, each of which has made a
transfer on the memory `f`, no two of them writing the same word: with the writes of
all of them the bank stays what it is. -/
theorem Solvent.merge {ι : Type} {l : List ι} {w : ι → ℕ → Option ℤ} {initBalance : ℤ}
    {start : ℕ} (hs : Solvent initBalance start f blocks) (hn : (cells blocks).Nodup)
    (ht : ∀ i ∈ l, ∃ g, (∀ a ∈ cells blocks, g a = merged f (w i) a) ∧ Transfers blocks f g)
    (huniq : ∀ a ∈ cells blocks, ∀ i ∈ l, ∀ j ∈ l, w i a ≠ none → w j a ≠ none → i = j) :
    Solvent initBalance start (merged f fun a => l.findSome? (w · a)) blocks := by
  induction l with
  | nil => exact hs
  | cons i l ih =>
    have ih := ih (fun j hj => ht j (List.mem_cons_of_mem _ hj)) fun a ha j hj k hk =>
      huniq a ha j (List.mem_cons_of_mem _ hj) k (List.mem_cons_of_mem _ hk)
    have hcons : ∀ a, merged f (fun a => (i :: l).findSome? (w · a)) a =
        merged (merged f fun a => l.findSome? (w · a)) (w i) a := by
      intro a
      simp only [merged, List.findSome?_cons]
      cases w i a <;> rfl
    by_cases hi : i ∈ l
    · -- its writes are there already
      apply ih.congr
      intro a ha
      rw [hcons, merged, merged]
      rcases hwa : w i a with _ | v
      · rfl
      · rcases hl : l.findSome? (w · a) with _ | v'
        · rw [List.findSome?_eq_none_iff.mp hl i hi] at hwa
          cases hwa
        · obtain ⟨j, hj, hv'⟩ := List.exists_of_findSome?_eq_some hl
          obtain rfl := huniq a ha i List.mem_cons_self j (List.mem_cons_of_mem _ hj)
            (by rw [hwa]; simp) (by rw [hv']; simp)
          rw [hwa] at hv'
          rw [Option.some.inj hv']
          rfl
    · obtain ⟨g, hg, htr⟩ := ht i List.mem_cons_self
      have hsame : ∀ a ∈ cells blocks, w i a ≠ none →
          merged f (fun a => l.findSome? (w · a)) a = f a := by
        intro a ha hwa
        rw [merged, List.findSome?_eq_none_iff.mpr fun j hj => ?_]
        · rfl
        · by_contra hj'
          exact hi (huniq a ha i List.mem_cons_self j (List.mem_cons_of_mem _ hj) hwa hj' ▸ hj)
      obtain ⟨g', hg', htr'⟩ := htr.move hs.fits hg hsame
      apply (ih.transfers hn htr').congr
      intro a ha
      rw [hg' a ha, hcons]

end

end DualStm
