import DualStm.Transactions
import DualStm.Library.Heap
import Mathlib.Tactic.Linarith

/-!
# The oracle of the bank

On a memory that runs the transactions one at a time and hands out zero-filled
segments, the checks of the bank never fail. The invariant that the workload
leaves unsaid is the shape of its list (`Filled`): every segment but the last is
full and the last is not empty. So when the last segment is emptied there are two
segments at least, and the first one is never freed.
-/

namespace DualStm

variable {M L : Type} {mem : Memory M ℤ} {loc : ℕ → L} {owns : M → ℕ → ℕ → Prop}
  {bank : WorkloadBank}

/-! ## The shape of the list

What the closures make of the list of segments: all are full but the last, which is not empty.
An account is added to the last segment or to a new one, and taken from the last one. -/

/-- All segments but the last hold `n` accounts, and the last holds one at least. -/
structure Filled (n : ℕ) (pre : List Block) (last : Block) : Prop where
  /-- all segments have the same room -/
  room : ∀ b ∈ pre ++ [last], b.room = n
  /-- the segments before the last are full -/
  full : ∀ b ∈ pre, b.count = n
  /-- the last is not empty -/
  pos : 0 < last.count
  /-- the last has no more accounts than room -/
  le : last.count ≤ n

/-- The segments that may be freed: all but the first. -/
def owned (blocks : List Block) : List (ℕ × ℕ) :=
  blocks.tail.map fun b => (b.addr, (3 + b.room) * WORD_SIZE)

/-- The memory holds the list of accounts, in good order. -/
structure Ledger (mem : Memory M ℤ) (loc : ℕ → L) (owns : M → ℕ → ℕ → Prop)
    (bank : WorkloadBank) (m : M) (f : ℕ → ℤ) (pre : List Block) (last : Block) : Prop where
  /-- the memory holds the words of the segments -/
  holds : mem.Holds loc owns (cells (pre ++ [last])) (owned (pre ++ [last])) m f
  /-- the segments meet the law of the bank -/
  sound : Solvent bank.initBalance bank.start f (pre ++ [last])
  /-- the segments are full but for the last -/
  filled : Filled bank.nbaccounts pre last

/-- There is a list of accounts in the memory, and it meets the law. -/
def IsBank (mem : Memory M ℤ) (loc : ℕ → L) (owns : M → ℕ → ℕ → Prop) (bank : WorkloadBank)
    (m : M) : Prop :=
  ∃ f pre last, Ledger mem loc owns bank m f pre last

namespace Ledger

variable {m : M} {f : ℕ → ℤ} {pre : List Block} {last : Block}

theorem apart (h : Ledger mem loc owns bank m f pre last) {a c : ℕ} (ha : a ∈ cells pre)
    (hc : c ∈ last.cells) : a ≠ c := by
  have hn := h.holds.nodup
  rw [cells_append, List.nodup_append] at hn
  apply hn.2.2 a ha c
  simpa [cells] using hc

theorem fits_pre (h : Ledger mem loc owns bank m f pre last) : Fits pre := fun b hb =>
  h.sound.fits b (List.mem_append_left _ hb)

/-- The list up to the last segment, and the last segment. -/
theorem linked (h : Ledger mem loc owns bank m f pre last) :
    Linked f bank.start pre last.addr ∧ last.addr ≠ 0 ∧ f last.segment.count = last.count ∧
      f last.segment.next = 0 := by
  obtain ⟨mid, hpre, rfl, hne, hcount, next, hnext, hstop⟩ := linked_append.mp h.sound.linked
  refine ⟨hpre, hne, hcount, ?_⟩
  rw [hnext, show next = 0 from hstop]
  rfl

end Ledger

theorem last_cells {pre : List Block} {last : Block} {a : ℕ} (ha : a ∈ last.cells) :
    a ∈ cells (pre ++ [last]) := cells_subset (List.mem_append_right _ List.mem_cons_self) ha

/-! ## `alloc_tx`

The walk counts the accounts. At the end of the list `alloc_tx` takes the last account away,
with its segment if it is the only one there, or it adds an account, to the last segment or in
a new one. Each of the four is a lemma. -/

section

variable {m : M} {f : ℕ → ℤ} {pre : List Block} {last : Block} {c : Tx}

/-- `alloc_tx` at the head of its loop, `k` segments before the end. -/
def AllocInv (f : ℕ → ℤ) (blocks : List Block) (k : ℕ) (l : AllocLocals) : Prop :=
  ∃ pre b post, blocks = pre ++ b :: post ∧ post.length + 1 = k ∧
    Linked f l.start (b :: post) 0 ∧ l.count = totalCount pre ∧
    (pre = [] ∨ ∃ pre' p, pre = pre' ++ [p] ∧ l.prev = p.addr)

/-- The law of the bank, with the last segment apart. -/
theorem Solvent.snoc {initBalance : ℤ} {start : ℕ} (hpre : Linked f start pre last.addr)
    (hne : last.addr ≠ 0) (hcount : f last.segment.count = last.count)
    (hnext : f last.segment.next = 0) (hfit : Fits pre) (hlast : last.count ≤ last.room)
    (hnn : ∀ a ∈ accounts pre, 0 ≤ f a) (hnn' : ∀ a ∈ last.accounts, 0 ≤ f a)
    (hbal : money f pre + (last.holders.map f).sum =
      initBalance * ((totalCount pre : ℤ) + last.count)) :
    Solvent initBalance start f (pre ++ [last]) := by
  refine ⟨linked_append.mpr ⟨_, hpre, rfl, hne, hcount, 0, by simpa using hnext, rfl⟩, ?_, ?_, ?_⟩
  · intro b hb
    rcases List.mem_append.mp hb with hb | hb
    · exact hfit b hb
    · obtain rfl := List.mem_singleton.mp hb
      exact hlast
  · intro a ha
    rcases List.mem_append.mp (accounts_append ▸ ha) with ha | ha
    · exact hnn a ha
    · exact hnn' a (by simpa [accounts] using ha)
  · rw [money_append, totalCount_append, money_cons, totalCount_cons]
    simp only [money, holders, List.flatMap_nil, List.map_nil, List.sum_nil, totalCount,
      add_zero] at hbal ⊢
    rw [hbal]
    push_cast
    rfl

namespace Ledger

/-- What is said of the segments before the last depends on their words only. -/
theorem pre_congr (h : Ledger mem loc owns bank m f pre last) {g : ℕ → ℤ}
    (hfg : ∀ a ∈ cells pre, g a = f a) :
    Linked g bank.start pre last.addr ∧ (∀ a ∈ accounts pre, 0 ≤ g a) ∧
      money g pre = money f pre := by
  refine ⟨linked_congr h.linked.1 fun a ha => (hfg a (links_subset ha)).symm, fun a ha => ?_,
    money_congr fun a ha => hfg a (holders_subset h.fits_pre ha)⟩
  rw [hfg a (holders_subset h.fits_pre (accounts_subset ha))]
  exact h.sound.nonneg a (by simp [ha])

theorem balanced (h : Ledger mem loc owns bank m f pre last) :
    money f pre + (last.holders.map f).sum =
      bank.initBalance * ((totalCount pre : ℤ) + last.count) := by
  have hbal := h.sound.balanced
  rw [money_append, totalCount_append, money_cons, totalCount_cons] at hbal
  simpa [money, holders, totalCount] using hbal

theorem nonneg_last (h : Ledger mem loc owns bank m f pre last) : ∀ a ∈ last.accounts, 0 ≤ f a :=
  fun a ha => h.sound.nonneg a (by simp [accounts, ha])

/-- An account comes or goes in the last segment. -/
theorem of_last (h : Ledger mem loc owns bank m f pre last) {m' : M} {f' : ℕ → ℤ} {n : ℕ}
    (hh : mem.Holds loc owns (cells (pre ++ [last])) (owned (pre ++ [last])) m' f')
    (hpre : ∀ a ∈ cells pre, f' a = f a) (hcount : f' last.segment.count = n)
    (hnext : f' last.segment.next = f last.segment.next) (hpos : 0 < n) (hle : n ≤ bank.nbaccounts)
    (hnn : ∀ i < n, 0 ≤ f' (last.segment.account i))
    (hsum : f' last.segment.parity + ((List.range n).map fun i => f' (last.segment.account i)).sum =
      (last.holders.map f).sum + bank.initBalance * ((n : ℤ) - last.count)) :
    IsBank mem loc owns bank m' := by
  set last' : Block := { last with count := n } with hlast'
  have hroom := h.filled.room
  have hcells : cells (pre ++ [last']) = cells (pre ++ [last]) := by
    simp [cells, Block.cells, hlast', Block.segment]
  have howned : owned (pre ++ [last']) = owned (pre ++ [last]) := by
    cases pre <;> simp [owned, hlast']
  obtain ⟨hlinked, hnonneg, hmoney⟩ := h.pre_congr hpre
  refine ⟨f', pre, last', by rw [hcells, howned]; exact hh, ?_, ⟨fun b hb => ?_, h.filled.full,
    hpos, hle⟩⟩
  · refine Solvent.snoc hlinked h.linked.2.1 hcount (hnext.trans h.linked.2.2.2) h.fits_pre ?_
      hnonneg ?_ ?_
    · show n ≤ last.room
      rw [hroom last (by simp)]
      exact hle
    · intro a ha
      obtain ⟨i, hi, rfl⟩ := List.mem_map.mp ha
      exact hnn i (List.mem_range.mp hi)
    · have hbal := h.balanced
      rw [hmoney, Block.holders, List.map_cons, List.sum_cons, Block.accounts, List.map_map]
      have hsum' : f' last'.segment.parity +
          ((List.range last'.count).map (f' ∘ last'.segment.account)).sum = _ := hsum
      rw [hsum', ← add_assoc, hbal]
      show _ = bank.initBalance * ((totalCount pre : ℤ) + (n : ℤ))
      ring
  · rcases List.mem_append.mp hb with hb | hb
    · exact hroom b (List.mem_append_left _ hb)
    · obtain rfl := List.mem_singleton.mp hb
      exact hroom last (by simp)

end Ledger

/-- A new segment with one account is put at the end of the list. -/
theorem Ledger.append (h : Ledger mem loc owns bank m f pre last)
    (hfull : last.count = bank.nbaccounts) (hinit : 0 ≤ bank.initBalance) {base : ℕ}
    (hbase : base ≠ 0) {m' : M} {f' : ℕ → ℤ}
    (hh : mem.Holds loc owns (cells (pre ++ [last]) ++ (⟨base, bank.nbaccounts, 1⟩ : Block).cells)
      ((base, (3 + bank.nbaccounts) * WORD_SIZE) :: owned (pre ++ [last])) m' f')
    (hold : ∀ a ∈ cells (pre ++ [last]), a ≠ last.segment.next → f' a = f a)
    (hnext : f' last.segment.next = base)
    (hnew : f' (Block.segment ⟨base, bank.nbaccounts, 1⟩).count = 1)
    (hnew_next : f' (Block.segment ⟨base, bank.nbaccounts, 1⟩).next = 0)
    (hnew_parity : f' (Block.segment ⟨base, bank.nbaccounts, 1⟩).parity = 0)
    (hnew_account : f' ((Block.segment ⟨base, bank.nbaccounts, 1⟩).account 0) =
      bank.initBalance) : IsBank mem loc owns bank m' := by
  set new : Block := ⟨base, bank.nbaccounts, 1⟩ with hnewdef
  have hn := h.holds.nodup
  have hpos : 0 < bank.nbaccounts := h.filled.pos.trans_le h.filled.le
  have hlinks : last.segment.next ∈ links (pre ++ [last]) := by simp [links, Block.links]
  -- money is where it was
  have hholders : ∀ a ∈ holders (pre ++ [last]), f' a = f a := by
    intro a ha
    apply hold a (holders_subset h.sound.fits ha)
    rintro rfl
    exact not_links_of_holders hn h.sound.fits ha hlinks
  have hcells : cells ((pre ++ [last]) ++ [new]) = cells (pre ++ [last]) ++ new.cells := by
    rw [cells_append]
    simp [cells]
  refine ⟨f', pre ++ [last], new, ?_, ?_, ⟨?_, ?_, Nat.one_pos, hpos⟩⟩
  · rw [hcells]
    apply hh.mono (List.Sublist.refl _)
    intro s hs
    have hs : s ∈ owned (pre ++ [last]) ++ [(base, (3 + bank.nbaccounts) * WORD_SIZE)] := by
      cases pre <;> simpa [owned] using hs
    rw [List.mem_cons, or_comm]
    simpa using hs
  · have hlnext : last.segment.next ∈ last.cells := Block.links_subset (by simp [Block.links])
    refine Solvent.snoc ?_ hbase ?_ hnew_next h.sound.fits hpos ?_ ?_ ?_
    · refine linked_append.mpr ⟨last.addr, (h.pre_congr fun a ha => hold a ?_ ?_).1, rfl,
        h.linked.2.1, ?_, base, hnext, rfl⟩
      · rw [cells_append]
        exact List.mem_append_left _ ha
      · exact h.apart ha hlnext
      · rw [hold _ (last_cells (Block.links_subset (by simp [Block.links]))) (by simp)]
        exact h.linked.2.2.1
    · rw [hnew]
      rfl
    · intro a ha
      rw [hholders a (accounts_subset ha)]
      exact h.sound.nonneg a ha
    · intro a ha
      obtain ⟨i, hi, rfl⟩ := List.mem_map.mp ha
      obtain rfl : i = 0 := Nat.lt_one_iff.mp (List.mem_range.mp hi)
      rw [hnew_account]
      exact hinit
    · have hsum : (new.holders.map f').sum = bank.initBalance := by
        have hrange : new.accounts = [new.segment.account 0] := rfl
        rw [Block.holders, hrange, List.map_cons, List.map_cons, List.map_nil, List.sum_cons,
          List.sum_cons, List.sum_nil, hnew_parity, hnew_account]
        ring
      rw [hsum, money_congr hholders, h.sound.balanced]
      show _ = bank.initBalance * (_ + ((1 : ℕ) : ℤ))
      push_cast
      ring
  · intro b hb
    rcases List.mem_append.mp hb with hb | hb
    · exact h.filled.room b hb
    · obtain rfl := List.mem_singleton.mp hb
      rfl
  · intro b hb
    rcases List.mem_append.mp hb with hb | hb
    · exact h.filled.full b hb
    · obtain rfl := List.mem_singleton.mp hb
      exact hfull

theorem createAccount_wp (h : Ledger mem loc owns bank m f pre last)
    (hmem : mem.Lawful loc owns) (hal : mem.LawfulAlloc loc owns WORD_SIZE)
    (hinit : 0 ≤ bank.initBalance) :
    (createAccount bank last.segment last.count).wp mem
      (fun _ c' m' => c' = c ∧ IsBank mem loc owns bank m') c m := by
  have hroom : last.room = bank.nbaccounts := h.filled.room last (by simp)
  rw [createAccount]
  split
  · -- there is room in the last segment
    rename_i hlt
    have hacc : last.segment.account last.count ∈ last.cells :=
      Block.account_mem_cells (hroom ▸ hlt)
    have hcnt : last.segment.count ∈ last.cells := by simp [Block.cells]
    rw [Prog.wp_bind]
    apply wp_write h.holds hmem (last_cells hacc)
    intro m₁ hh₁
    refine wp_write hh₁ hmem (last_cells hcnt) fun m₂ hh₂ => ⟨rfl, ?_⟩
    set g := Function.update f (last.segment.account last.count) bank.initBalance with hg
    have hg_acc : ∀ i, i ≠ last.count → g (last.segment.account i) = f (last.segment.account i) :=
      fun i hi => Function.update_of_ne (Block.account_ne hi) _ _
    have hg_self : g (last.segment.account last.count) = bank.initBalance :=
      Function.update_self ..
    have hupd : ∀ a v, a ≠ last.segment.count →
        Function.update g last.segment.count v a = g a := fun a v ha => Function.update_of_ne ha _ _
    have hne : ∀ i, last.segment.account i ≠ last.segment.count := Block.account_ne_count
    refine h.of_last (n := last.count + 1) hh₂ ?_ (Function.update_self ..) ?_ (Nat.succ_pos _) hlt
      ?_ ?_
    · intro a ha
      rw [hupd a _ (h.apart ha hcnt), hg, Function.update_of_ne (h.apart ha hacc)]
    · rw [hupd _ _ (by simp), hg, Function.update_of_ne]
      simp only [Block.segment_account, Block.segment_next]
      omega
    · intro i hi
      rw [hupd _ _ (hne i)]
      rcases Nat.lt_succ_iff_lt_or_eq.mp hi with hi | rfl
      · rw [hg_acc i hi.ne]
        exact h.nonneg_last _ (List.mem_map_of_mem (List.mem_range.mpr hi))
      · rw [hg_self]
        exact hinit
    · simp only [hupd _ _ (hne _)]
      rw [hupd _ _ (by simp), List.range_succ, List.map_append, List.sum_append,
        List.map_congr_left fun i hi => hg_acc i (List.mem_range.mp hi).ne]
      simp only [List.map_cons, List.map_nil, List.sum_cons, List.sum_nil, hg_self,
        Block.holders, Block.accounts, List.map_map, Function.comp_def]
      have hpar : g last.segment.parity = f last.segment.parity := by
        rw [hg, Function.update_of_ne (Block.account_ne_parity _).symm]
      rw [hpar]
      push_cast
      ring
  · -- it takes a new segment
    rename_i hfull
    obtain ⟨base, m₁, halloc, hbase, -, hh₁⟩ := h.holds.alloc hal (by decide) (3 + bank.nbaccounts)
    set new : Block := ⟨base, bank.nbaccounts, 1⟩ with hnew
    have hh₁ := hh₁ new.cells new.cells_eq
    have hpos : 0 < bank.nbaccounts := h.filled.pos.trans_le h.filled.le
    have hnext : last.segment.next ∈ cells (pre ++ [last]) :=
      last_cells (Block.links_subset (by simp [Block.links]))
    have hcell : ∀ a ∈ new.cells, a ∈ cells (pre ++ [last]) ++ new.cells := fun a =>
      List.mem_append_right _
    have hapart : ∀ a ∈ cells (pre ++ [last]), ∀ a' ∈ new.cells, a ≠ a' :=
      (List.nodup_append.mp hh₁.nodup).2.2
    have hcount : new.segment.count ∈ new.cells := by simp [Block.cells]
    have hacc : new.segment.account 0 ∈ new.cells := Block.account_mem_cells hpos
    obtain ⟨m₂, hwrite, hh₂⟩ := hh₁.write hmem (List.mem_append_left _ hnext) (base : ℤ)
    rw [Prog.wp_bind]
    refine ⟨(base, m₁), ?_, m₂, hwrite, ?_⟩
    · rw [← halloc, AccountSegment.size, ← Nat.add_mul]
    · show (AccountSegment.bind new.addr >>= fun nextSegment => Shared.write nextSegment.count 1
        >>= fun _ => Shared.write (nextSegment.account 0) bank.initBalance).wp mem _ c m₂
      refine Prog.wp_bind.mpr ((wp_bindSegment hbase).mpr ?_)
      refine Prog.wp_bind.mpr (wp_write hh₂ hmem (hcell _ hcount) ?_)
      intro m₃ hh₃
      refine wp_write hh₃ hmem (hcell _ hacc) fun m₄ hh₄ => ⟨rfl, ?_⟩
      refine h.append (le_antisymm h.filled.le (not_lt.mp hfull)) hinit hbase hh₄
        (fun a ha hne => ?_) ?_ ?_ ?_ ?_ (Function.update_self ..)
      · rw [Function.update_of_ne (hapart a ha _ hacc),
          Function.update_of_ne (hapart a ha _ hcount), Function.update_of_ne hne,
          if_neg fun hmem => hapart a ha a hmem rfl]
      · rw [Function.update_of_ne (hapart _ hnext _ hacc),
          Function.update_of_ne (hapart _ hnext _ hcount), Function.update_self]
      · rw [Function.update_of_ne (Block.account_ne_count 0).symm, Function.update_self]
      -- the rest of the new segment is zero
      · have hmem : new.segment.next ∈ new.cells := by simp [Block.cells]
        rw [Function.update_of_ne (Block.account_ne_next 0).symm, Function.update_of_ne (by simp),
          Function.update_of_ne (hapart _ hnext _ hmem).symm, if_pos hmem]
      · have hmem : new.segment.parity ∈ new.cells := by simp [Block.cells]
        rw [Function.update_of_ne (Block.account_ne_parity 0).symm, Function.update_of_ne (by simp),
          Function.update_of_ne (hapart _ hnext _ hmem).symm, if_pos hmem]

/-- The last segment is gone, and its money with the segment before it. -/
theorem Ledger.removeLast {p : Block} (h : Ledger mem loc owns bank m f (pre ++ [p]) last)
    (hone : last.count = 1) {m' : M} {f' : ℕ → ℤ}
    (hh : mem.Holds loc owns (cells (pre ++ [p])) (owned (pre ++ [p])) m' f')
    (hold : ∀ a, a ≠ p.segment.next → a ≠ p.segment.parity → f' a = f a)
    (hnext : f' p.segment.next = 0)
    (hparity : f' p.segment.parity = f p.segment.parity +
      (f last.segment.parity + f (last.segment.account 0) - bank.initBalance)) :
    IsBank mem loc owns bank m' := by
  have hn := hh.nodup
  rw [cells_append, List.nodup_append] at hn
  obtain ⟨mid, hlinked, rfl, hne, hcount, -⟩ := linked_append.mp h.linked.1
  have hpfull : p.count = bank.nbaccounts := h.filled.full p (by simp)
  have hmoves : ∀ a ∈ p.cells, ∀ b ∈ cells pre, b ≠ a := fun a ha b hb =>
    hn.2.2 b hb a (by simpa [cells] using ha)
  have hpre : ∀ a ∈ cells pre, f' a = f a := fun a ha =>
    hold a (hmoves _ (by simp [Block.cells]) a ha) (hmoves _ (by simp [Block.cells]) a ha)
  have hacc : ∀ i, f' (p.segment.account i) = f (p.segment.account i) := fun i =>
    hold _ (Block.account_ne_next i) (Block.account_ne_parity i)
  have hfit : Fits pre := fun b hb => h.fits_pre b (List.mem_append_left _ hb)
  refine ⟨f', pre, p, hh, ?_, ⟨?_, ?_, ?_, hpfull.le⟩⟩
  · refine Solvent.snoc (linked_congr hlinked fun a ha => (hpre a (links_subset ha)).symm) hne ?_
      hnext hfit (h.fits_pre p (by simp)) ?_ ?_ ?_
    · rw [hold _ (by simp) (by simp), hcount]
    · intro a ha
      rw [hpre a (holders_subset hfit (accounts_subset ha))]
      exact h.sound.nonneg a (by simp [ha])
    · intro a ha
      have hnn := h.sound.nonneg a (accounts_mem (b := p) (by simp) ha)
      obtain ⟨i, -, rfl⟩ := List.mem_map.mp ha
      rw [hacc]
      exact hnn
    · have hbal := h.balanced
      have hlast : (last.holders.map f).sum =
          f last.segment.parity + f (last.segment.account 0) := by
        simp [Block.holders, Block.accounts, hone]
      rw [money_append, totalCount_append, money_cons, totalCount_cons, hlast, hone] at hbal
      rw [money_congr fun a ha => hpre a (holders_subset hfit ha)]
      simp only [Block.holders, Block.accounts, List.map_cons, List.sum_cons, List.map_map,
        Function.comp_def, hacc, hparity, money, holders, List.flatMap_nil, List.map_nil,
        List.sum_nil, totalCount, add_zero] at hbal ⊢
      push_cast at hbal ⊢
      linarith
  · intro b hb
    exact h.filled.room b (List.mem_append_left _ hb)
  · intro b hb
    exact h.filled.full b (List.mem_append_left _ hb)
  · rw [hpfull]
    exact h.filled.pos.trans_le h.filled.le

theorem destroyAccount_wp (h : Ledger mem loc owns bank m f pre last)
    (hmem : mem.Lawful loc owns) (hal : mem.LawfulAlloc loc owns WORD_SIZE) {prev : ℕ}
    (hprev : pre = [] ∨ ∃ pre' p, pre = pre' ++ [p] ∧ prev = p.addr)
    (htwo : 2 < totalCount pre + last.count) :
    (destroyAccount bank prev last.segment last.count).wp mem
      (fun _ c' m' => c' = c ∧ IsBank mem loc owns bank m') c m := by
  obtain ⟨k, hk⟩ : ∃ k, last.count = k + 1 := ⟨last.count - 1, by have := h.filled.pos; omega⟩
  have hfit : last.count ≤ last.room := h.sound.fits last (by simp)
  have hacc : last.segment.account k ∈ last.cells := Block.account_mem_cells (by omega)
  have hcnt : last.segment.count ∈ last.cells := by simp [Block.cells]
  have hpar : last.segment.parity ∈ last.cells := by simp [Block.cells]
  have hdec : decrement last.count = k := by
    rw [decrement, if_neg (by omega), hk]
    rfl
  rw [destroyAccount, hdec, Prog.wp_bind, wp_read h.holds (last_cells hpar), Prog.wp_bind,
    wp_read h.holds (last_cells hacc)]
  set newParity := f last.segment.parity + f (last.segment.account k) - bank.initBalance
    with hnewParity
  split
  · -- an account less in the last segment
    rename_i hpos
    rw [Prog.wp_bind]
    apply wp_write h.holds hmem (last_cells hcnt)
    intro m₁ hh₁
    refine wp_write hh₁ hmem (last_cells hpar) fun m₂ hh₂ => ⟨rfl, ?_⟩
    have hupd : ∀ a, a ≠ last.segment.count → a ≠ last.segment.parity →
        Function.update (Function.update f last.segment.count (k : ℤ)) last.segment.parity newParity
          a = f a := fun a hc hp => by
      rw [Function.update_of_ne hp, Function.update_of_ne hc]
    refine h.of_last (n := k) hh₂ (fun a ha => hupd a (h.apart ha hcnt) (h.apart ha hpar)) ?_
      (hupd _ (by simp) (by simp)) hpos ?_ ?_ ?_
    · rw [Function.update_of_ne (by simp), Function.update_self]
    · have := h.filled.le
      omega
    · intro i hi
      rw [hupd _ (Block.account_ne_count i) (Block.account_ne_parity i)]
      exact h.nonneg_last _ (List.mem_map_of_mem (List.mem_range.mpr (by omega)))
    · simp only [hupd _ (Block.account_ne_count _) (Block.account_ne_parity _)]
      rw [Function.update_self, Block.holders, Block.accounts, hk, List.range_succ]
      simp only [List.map_cons, List.map_append, List.map_nil, List.map_map, List.sum_cons,
        List.sum_append, List.sum_nil, Function.comp_def, hnewParity]
      push_cast
      ring
  · -- the last segment is empty, and there is one before it
    rename_i hzero
    obtain rfl : k = 0 := by omega
    obtain rfl | ⟨pre, p, rfl, rfl⟩ := hprev
    · simp only [totalCount, List.map_nil, List.sum_nil, hk] at htwo
      omega
    obtain ⟨mid, -, -, hne, -, next, hnext, hlast⟩ := linked_append.mp h.linked.1
    obtain rfl : next = last.addr := hlast
    have hp : ∀ a ∈ p.cells, a ∈ cells (pre ++ [p]) := fun a => last_cells
    have hpnext : p.segment.next ∈ p.cells := by simp [Block.cells]
    have hppar : p.segment.parity ∈ p.cells := by simp [Block.cells]
    have hcells : cells (pre ++ [p] ++ [last]) = cells (pre ++ [p]) ++ last.cells := by
      rw [show cells (pre ++ [p] ++ [last]) = cells (pre ++ [p]) ++ cells [last] from cells_append]
      simp [cells]
    have hsegs : ∀ s ∈ owned (pre ++ [p]), s ∈ owned (pre ++ [p] ++ [last]) ∧ s.1 ≠ last.addr := by
      intro s hs
      obtain ⟨b, hb, rfl⟩ := List.mem_map.mp hs
      have hbc : b.segment.count ∈ cells (pre ++ [p]) :=
        cells_subset (List.mem_of_mem_tail hb) (by simp [Block.cells])
      refine ⟨List.mem_map_of_mem ?_, h.apart hbc hcnt⟩
      rw [List.tail_append_of_ne_nil (by simp)]
      exact List.mem_append_left _ hb
    have hlast : (last.addr, (3 + last.room) * WORD_SIZE) ∈ owned (pre ++ [p] ++ [last]) := by
      cases pre <;> simp [owned]
    obtain ⟨m₁, hfree, hh₁⟩ := (hcells ▸ h.holds).free last.cells_eq hal hlast hsegs
    rw [Prog.wp_bind, wp_bindSegment hne, Prog.wp_bind, Shared.free, Prog.wp_bind,
      wp_readSize h.holds (hcells ▸ List.mem_append_left _ (hp _ hpnext)), hnext, Int.toNat_natCast]
    refine ⟨m₁, hfree, wp_write hh₁ hmem (hp _ hpnext) ?_⟩
    intro m₂ hh₂
    rw [Prog.wp_bind, wp_read hh₂ (hp _ hppar)]
    refine wp_write hh₂ hmem (hp _ hppar) fun m₃ hh₃ => ⟨rfl, ?_⟩
    refine h.removeLast hk hh₃ ?_ ?_ ?_
    · intro a hn hp
      rw [Function.update_of_ne hp, Function.update_of_ne hn]
    · rw [Function.update_of_ne (by simp), Function.update_self]
    · rw [Function.update_self, Function.update_of_ne (by simp)]

theorem allocTurn_wp {k trigger : ℕ} {l : AllocLocals} (h : Ledger mem loc owns bank m f pre last)
    (hmem : mem.Lawful loc owns) (hal : mem.LawfulAlloc loc owns WORD_SIZE)
    (hinit : 0 ≤ bank.initBalance) (hinv : AllocInv f (pre ++ [last]) k l) :
    (allocTurn bank trigger l).wp mem (Sum.elim
      (fun l' c' m' => m' = m ∧ c' = c ∧ ∃ j < k, AllocInv f (pre ++ [last]) j l')
      (fun _ c' m' => c' = c ∧ IsBank mem loc owns bank m')) c m := by
  obtain ⟨pre', b, post, hblocks, hk, ⟨hstart, hne, hbcount, next, hnext, hrest⟩, hcount, hprev⟩ :=
    hinv
  have hb : b ∈ pre ++ [last] := by simp [hblocks]
  have hcells : ∀ a ∈ b.cells, a ∈ cells (pre ++ [last]) := fun a => cells_subset hb
  rw [allocTurn, hstart, Prog.wp_bind, wp_bindSegment hne, Prog.wp_bind,
    wp_readSize h.holds (hcells _ (by simp [Block.cells])), hbcount, Int.toNat_natCast,
    Prog.wp_bind, wp_readSize h.holds (hcells _ (by simp [Block.cells])), hnext,
    Int.toNat_natCast]
  cases post with
  | nil =>
    -- the last segment
    obtain ⟨rfl, rfl⟩ : pre = pre' ∧ last = b := by simpa using hblocks
    rw [if_pos (show next = 0 from hrest), hcount]
    split
    · rename_i hdestroy
      exact Prog.wp_bind.mpr (destroyAccount_wp h hmem hal hprev hdestroy.2)
    · exact Prog.wp_bind.mpr (createAccount_wp h hmem hal hinit)
  | cons b' post =>
    rw [if_neg (by rw [hrest.head]; exact hrest.2.1)]
    refine ⟨rfl, rfl, post.length + 1, by simp [← hk], pre' ++ [b], b', post, by simp [hblocks],
      rfl, hrest, ?_, .inr ⟨pre', b, rfl, rfl⟩⟩
    rw [totalCount_append, hcount]
    rfl

end

/-! ## All transactions

Each transaction runs alone on the memory it finds: the walks read the whole list, a transfer
moves one unit, and the law holds afterwards. -/

section

variable {m : M} {c : Tx}

/-- The transactions that `run` picks from. -/
def Tx.ofRun : Tx → Bool
  | .init => false
  | .initCheck => false
  | _ => true

/-- A transaction of `run` at the head of its loop, at most `k` turns before its end. -/
def UnderWay (mem : Memory M ℤ) (loc : ℕ → L) (owns : M → ℕ → ℕ → Prop) (bank : WorkloadBank)
    (k : ℕ) (l : Locals) (c : Tx) (m : M) : Prop :=
  ∃ f pre last, Ledger mem loc owns bank m f pre last ∧
    (Visits f (pre ++ [last]) k l c ∨ ∃ trigger l', l = .alloc trigger l' ∧ c = .alloc trigger ∧
      AllocInv f (pre ++ [last]) k l')

theorem underWay_enter {tx : Tx} (htx : tx.ofRun = true) (hm : IsBank mem loc owns bank m) :
    ∃ k, UnderWay mem loc owns bank k (enter bank tx) tx m := by
  obtain ⟨f, pre, last, h⟩ := hm
  have hlinked := h.sound.linked
  obtain ⟨b, blocks, hblocks⟩ := List.exists_cons_of_ne_nil
    (show pre ++ [last] ≠ [] by simp)
  refine ⟨(pre ++ [last]).length, f, pre, last, h, ?_⟩
  rw [hblocks] at hlinked ⊢
  cases tx with
  | alloc trigger =>
    exact .inr ⟨trigger, _, rfl, rfl, [], b, blocks, rfl, rfl, hlinked, rfl, .inl rfl⟩
  | long n => exact .inl (visits_enter rfl (hlinked.head ▸ hlinked.2.1) hlinked)
  | short i j => exact .inl (visits_enter rfl (hlinked.head ▸ hlinked.2.1) hlinked)
  | _ => cases htx

theorem underWay_turn (hmem : mem.Lawful loc owns) (hal : mem.LawfulAlloc loc owns WORD_SIZE)
    (hinit : 0 ≤ bank.initBalance) {k : ℕ} {l : Locals} (h : UnderWay mem loc owns bank k l c m) :
    (turn bank l).wp mem (Sum.elim
      (fun l' c' m' => c'.isRo = c.isRo ∧ ∃ j < k, UnderWay mem loc owns bank j l' c' m')
      (fun r _ m' => (c.isRo = true → r = some true) ∧ IsBank mem loc owns bank m')) c m := by
  obtain ⟨f, pre, last, hl, hv | ⟨trigger, l, rfl, rfl, hinv⟩⟩ := h
  · apply Prog.wp_mono (turn_wp hl.holds hmem hl.sound hv)
    intro r c' m' h
    rcases r with l' | r
    · obtain ⟨rfl, hro, j, hj, hv'⟩ := h
      exact ⟨hro, j, hj, f, pre, last, hl, .inl hv'⟩
    · obtain ⟨-, hr, f', hh', ht⟩ := h
      exact ⟨hr, f', pre, last, hh', hl.sound.transfers hl.holds.nodup ht, hl.filled⟩
  · refine Prog.wp_bind.mpr (Prog.wp_mono (allocTurn_wp hl hmem hal hinit hinv) ?_)
    intro r c' m' h
    rcases r with l' | r
    · obtain ⟨rfl, rfl, j, hj, hinv'⟩ := h
      exact ⟨rfl, j, hj, f, pre, last, hl, .inr ⟨trigger, l', rfl, rfl, hinv'⟩⟩
    · exact ⟨by rintro ⟨⟩, h.2⟩

theorem runTx_total (hmem : mem.Lawful loc owns) (hal : mem.LawfulAlloc loc owns WORD_SIZE)
    (hinit : 0 ≤ bank.initBalance) {tx : Tx} (htx : tx.ofRun = true)
    (hm : IsBank mem loc owns bank m) :
    ∃ k r c' m', (∀ n, k < n → runTx bank mem n tx m = some (r, c', m')) ∧
      (tx.isRo = true → r = some true) ∧ IsBank mem loc owns bank m' := by
  obtain ⟨k, hk⟩ := underWay_enter htx hm
  obtain ⟨r, c', m', hloop, hpost⟩ := Prog.loop_total
    (I := fun k l c m => c.isRo = tx.isRo ∧ UnderWay mem loc owns bank k l c m)
    (Q := fun r _ m => (tx.isRo = true → r = some true) ∧ IsBank mem loc owns bank m)
    (fun k l c m ⟨hro, h⟩ => Prog.wp_mono (underWay_turn hmem hal hinit h) fun r c' m' h => by
      rcases r with l' | r
      · obtain ⟨hro', j, hj, h⟩ := h
        exact ⟨j, hj, hro'.trans hro, h⟩
      · exact ⟨fun hlong => h.1 (hro.trans hlong), h.2⟩) ⟨rfl, hk⟩
  exact ⟨k, r, c', m', hloop, hpost⟩

omit loc owns in
theorem runAll_cons {n : ℕ} {tx : Tx} {txs : List Tx} {r : Option Bool} {m' : M}
    (h : runTx bank mem n tx m = some (r, c, m')) :
    runAll bank mem n (tx :: txs) m =
      (runAll bank mem n txs m').map fun (rs, m) => (r :: rs, m) := by
  rw [runAll, h]
  rfl

theorem runAll_total (hmem : mem.Lawful loc owns) (hal : mem.LawfulAlloc loc owns WORD_SIZE)
    (hinit : 0 ≤ bank.initBalance) {txs : List Tx} (htxs : ∀ tx ∈ txs, tx.ofRun = true)
    (hm : IsBank mem loc owns bank m) :
    ∃ k rs m', (∀ n, k < n → runAll bank mem n txs m = some (rs, m')) ∧
      List.Forall₂ (fun tx r => tx.isRo = true → r = some true) txs rs ∧
      IsBank mem loc owns bank m' := by
  induction txs generalizing m with
  | nil => exact ⟨0, [], m, fun _ _ => rfl, .nil, hm⟩
  | cons tx txs ih =>
    obtain ⟨k₁, r, c', m₁, hrun, hr, hm₁⟩ := runTx_total hmem hal hinit
      (htxs tx List.mem_cons_self) hm
    obtain ⟨k₂, rs, m', hall, hrs, hm'⟩ := ih (fun tx h => htxs tx (List.mem_cons_of_mem _ h)) hm₁
    refine ⟨max k₁ k₂, r :: rs, m', ?_, .cons hr hrs, hm'⟩
    intro n hn
    rw [runAll_cons (hrun n (lt_of_le_of_lt (le_max_left _ _) hn)),
      hall n (lt_of_le_of_lt (le_max_right _ _) hn)]
    rfl

end

/-! ## `init`

`init` makes the first segment, full of accounts with `init_balance` each, so the list begins
with one segment. -/

section

variable {m : M} {f : ℕ → ℤ} {c : Tx} {addrs : List ℕ} {segs : List (ℕ × ℕ)}

theorem wp_fillAccounts {Q : Unit → Tx → M → Prop} {b : Block} (hmem : mem.Lawful loc owns) :
    ∀ (k i : ℕ) {m : M} {f : ℕ → ℤ}, mem.Holds loc owns addrs segs m f →
    (∀ j ∈ List.range' i k, b.segment.account j ∈ addrs) →
    (∀ m' f', mem.Holds loc owns addrs segs m' f' →
      (∀ j ∈ List.range' i k, f' (b.segment.account j) = bank.initBalance) →
      (∀ a, (∀ j ∈ List.range' i k, a ≠ b.segment.account j) → f' a = f a) → Q () c m') →
    (fillAccounts bank b.segment k i).wp mem Q c m := by
  intro k
  induction k with
  | zero =>
    intro i m f hh _ hQ
    exact hQ m f hh (by simp) fun _ _ => rfl
  | succ k ih =>
    intro i m f hh hacc hQ
    rw [List.range'_succ] at hacc hQ
    rw [fillAccounts, Prog.wp_bind]
    apply wp_write hh hmem (hacc i List.mem_cons_self)
    intro m₁ hh₁
    refine ih (i + 1) hh₁ (fun j hj => hacc j (List.mem_cons_of_mem _ hj))
      fun m' f' hh' hnew hold => hQ m' f' hh' ?_ fun a ha => ?_
    · refine List.forall_mem_cons.mpr ⟨?_, hnew⟩
      rw [hold _ fun j hj => Block.account_ne ?_, Function.update_self]
      have := List.mem_range'_1.mp hj
      omega
    · rw [hold a fun j hj => ha j (List.mem_cons_of_mem _ hj),
        Function.update_of_ne (ha i List.mem_cons_self)]

/-- The first segment as `init` leaves it. -/
def WorkloadBank.first (bank : WorkloadBank) : Block :=
  ⟨bank.start, bank.nbaccounts, bank.nbaccounts⟩

theorem initTx_wp (hmem : mem.Lawful loc owns) (hstart : bank.start ≠ 0)
    (hn : 1 ≤ bank.nbaccounts) (hinit : 0 ≤ bank.initBalance)
    (hm : mem.Holds loc owns bank.first.cells [] m f) (hnext : f bank.first.segment.next = 0)
    (hparity : f bank.first.segment.parity = 0) :
    (initTx bank).wp mem (fun _ _ m' => ∃ f, Ledger mem loc owns bank m' f [] bank.first ∧
      f (bank.first.segment.account 0) = bank.initBalance ∧
      f bank.first.segment.parity = 0) c m := by
  have hcells : cells ([] ++ [bank.first]) = bank.first.cells := by simp [cells]
  have hacc : ∀ j ∈ List.range' 0 bank.nbaccounts,
      bank.first.segment.account j ∈ bank.first.cells := fun j hj => Block.account_mem_cells (by
      have hj := List.mem_range'_1.mp hj
      rw [zero_add] at hj
      exact hj.2)
  rw [initTx, Prog.wp_bind]
  apply (wp_bindSegment (b := bank.first) hstart).mpr
  rw [Prog.wp_bind]
  apply wp_write hm hmem (by simp [Block.cells])
  intro m₁ hh₁
  apply wp_fillAccounts hmem _ _ hh₁ hacc
  intro m' f' hh' hnew hold
  have hother : ∀ a, (∀ j, a ≠ bank.first.segment.account j) → a ≠ bank.first.segment.count →
      f' a = f a := fun a ha hc => by
    rw [hold a fun j _ => ha j, Function.update_of_ne hc]
  have hnext' : f' bank.first.segment.next = 0 :=
    (hother _ (fun j => (Block.account_ne_next j).symm) (by simp)).trans hnext
  have hparity' : f' bank.first.segment.parity = 0 :=
    (hother _ (fun j => (Block.account_ne_parity j).symm) (by simp)).trans hparity
  have hnew : ∀ j < bank.nbaccounts, f' (bank.first.segment.account j) = bank.initBalance :=
    fun j hj => hnew j (List.mem_range'_1.mpr (by omega))
  refine ⟨f', ⟨by rw [hcells]; exact hh', ?_, ⟨?_, by simp, hn, le_rfl⟩⟩, hnew 0 hn, hparity'⟩
  · refine Solvent.snoc rfl hstart ?_ hnext' (by simp [Fits]) le_rfl (by simp [accounts]) ?_ ?_
    · rw [hold _ fun j _ => (Block.account_ne_count j).symm, Function.update_self]
      rfl
    · intro a ha
      obtain ⟨j, hj, rfl⟩ := List.mem_map.mp ha
      rw [hnew j (List.mem_range.mp hj)]
      exact hinit
    · have hsum : bank.first.accounts.map f' =
          List.replicate bank.nbaccounts bank.initBalance := by
        rw [List.eq_replicate_iff, Block.accounts, List.map_map]
        refine ⟨by simp [WorkloadBank.first], ?_⟩
        intro v hv
        obtain ⟨j, hj, rfl⟩ := List.mem_map.mp hv
        exact hnew j (List.mem_range.mp hj)
      rw [Block.holders, List.map_cons, List.sum_cons, hsum, hparity']
      simp [money, holders, totalCount, WorkloadBank.first, mul_comm]
  · simp [WorkloadBank.first]

theorem init_total (hmem : mem.Lawful loc owns) (hstart : bank.start ≠ 0)
    (hn : 1 ≤ bank.nbaccounts) (hinit : 0 ≤ bank.initBalance)
    (hm : mem.Holds loc owns bank.first.cells [] m fun _ => 0) :
    ∃ m', (∀ n, 0 < n → runAll bank mem n [.init, .initCheck] m = some ([none, some true], m')) ∧
      IsBank mem loc owns bank m' := by
  have hinit : (turn bank .init).wp mem (Sum.elim (fun _ _ _ => False) fun r _ m' => r = none ∧
      ∃ f, Ledger mem loc owns bank m' f [] bank.first ∧
        f (bank.first.segment.account 0) = bank.initBalance) .init m :=
    Prog.wp_bind.mpr (Prog.wp_mono (initTx_wp hmem hstart hn hinit hm rfl rfl)
      fun _ _ _ ⟨f, h, hbal, _⟩ => ⟨rfl, f, h, hbal⟩)
  obtain ⟨r, c₁, m₁, hrun, rfl, f, hl, hbal⟩ := Prog.loop_once hinit
  have hcheck : (turn bank .initCheck).wp mem (Sum.elim (fun _ _ _ => False) fun r _ m' =>
      r = some true ∧ m' = m₁) .initCheck m₁ := by
    apply Prog.wp_bind.mpr
    rw [initCheckTx, Prog.wp_bind]
    apply (wp_bindSegment (b := bank.first) hstart).mpr
    rw [Prog.wp_bind, wp_read hl.holds (last_cells (Block.account_mem_cells hn)), hbal]
    exact ⟨by simp, rfl⟩
  obtain ⟨r, c₂, m₂, hcheck, rfl, rfl⟩ := Prog.loop_once hcheck
  refine ⟨m₂, ?_, f, [], bank.first, hl⟩
  intro n hn
  have hrun : runTx bank mem n .init m = _ := hrun n hn
  have hcheck : runTx bank mem n .initCheck m₂ = _ := hcheck n hn
  rw [runAll_cons hrun, runAll_cons hcheck]
  rfl

end

/-! ## The oracle

Any sequence of transactions that begins with `init` keeps the law, and whatever checks it
makes come out true. -/

theorem runAll_extends {mem' : Memory M ℤ} (h : mem.Extends mem') {n : ℕ} {txs : List Tx} {m : M}
    {r : List (Option Bool) × M} (hr : runAll bank mem' n txs m = some r) :
    runAll bank mem n txs m = some r := by
  induction txs generalizing m r with
  | nil => exact hr
  | cons tx txs ih =>
    obtain ⟨⟨r₁, c₁, m₁⟩, hrun, hr⟩ := Option.bind_eq_some_iff.mp hr
    obtain ⟨r₂, hall, rfl⟩ := Option.map_eq_some_iff.mp hr
    rw [runAll_cons (Prog.loop_extends h hrun), ih hall]
    rfl

theorem runAll_append {n : ℕ} {txs txs' : List Tx} {m m₁ : M} {rs : List (Option Bool)}
    (h : runAll bank mem n txs m = some (rs, m₁)) :
    runAll bank mem n (txs ++ txs') m =
      (runAll bank mem n txs' m₁).map fun (rs', m) => (rs ++ rs', m) := by
  induction txs generalizing m rs with
  | nil =>
    obtain ⟨rfl, rfl⟩ : [] = rs ∧ m = m₁ := by simpa [runAll] using h
    rcases h : runAll bank mem n txs' m with _ | ⟨rs', m'⟩ <;> simp [h]
  | cons tx txs ih =>
    obtain ⟨⟨r₁, c₁, m₂⟩, hrun, hr⟩ := Option.bind_eq_some_iff.mp h
    obtain ⟨⟨rs₂, m₃⟩, hall, hr⟩ := Option.map_eq_some_iff.mp hr
    obtain ⟨rfl, rfl⟩ := Prod.mk.inj hr
    rw [List.cons_append, runAll_cons hrun, ih hall, Option.map_map]
    rfl

/-- **The oracle never accuses a correct memory.** After `init`, whatever the
transactions, and even where the first segment may not be freed, no transaction
binds a segment to a null pointer or leaves the memory, all come to an end, every
`long_tx` returns `true`, and what is left is a list of full segments but for the
last one. -/
theorem bank_oracle (hmem : mem.Lawful loc owns) (hal : mem.LawfulAlloc loc owns WORD_SIZE)
    (hstart : bank.start ≠ 0) (hfirst : ∀ m n, ¬ owns m bank.start n)
    (hn : 1 ≤ bank.nbaccounts) (hinit : 0 ≤ bank.initBalance) {m : M}
    (hm : mem.Holds loc owns bank.first.cells [] m fun _ => 0) {txs : List Tx}
    (htxs : ∀ tx ∈ txs, tx.ofRun = true) :
    ∃ k rs m', (∀ n, k < n →
        runAll bank mem n (.init :: .initCheck :: txs) m = some (none :: some true :: rs, m') ∧
        runAll bank (mem.sparing bank.start) n (.init :: .initCheck :: txs) m =
          some (none :: some true :: rs, m')) ∧
      List.Forall₂ (fun tx r => ∀ n, tx = .long n → r = some true) txs rs ∧
      ∃ f pre last, Ledger mem loc owns bank m' f pre last := by
  have hmem : (mem.sparing bank.start).Lawful loc owns := hmem.sparing
  have hal : (mem.sparing bank.start).LawfulAlloc loc owns WORD_SIZE := hal.sparing hfirst
  obtain ⟨m₁, hinits, hm₁⟩ := init_total hmem hstart hn hinit ⟨hm.apart, hm.read, by simp⟩
  obtain ⟨k, rs, m', hall, hrs, f, pre, last, hl⟩ := runAll_total hmem hal hinit htxs hm₁
  have hrun : ∀ n, k < n → runAll bank (mem.sparing bank.start) n (.init :: .initCheck :: txs) m =
      some (none :: some true :: rs, m') := fun n hn => by
    rw [show Tx.init :: .initCheck :: txs = [.init, .initCheck] ++ txs from rfl,
      runAll_append (hinits n (Nat.zero_lt_of_lt hn)), hall n hn]
    rfl
  refine ⟨k, rs, m', fun n hn => ⟨runAll_extends Memory.extends_sparing (hrun n hn), hrun n hn⟩,
    hrs.imp fun tx r h n htx => h (by rw [htx]; rfl), f, pre, last, ?_⟩
  exact ⟨⟨hl.holds.apart, hl.holds.read, hl.holds.owned⟩, hl.sound, hl.filled⟩

/-- Of one account, two more are made in segments of their own; then there is a transfer, and
the last account goes again with its segment. -/
theorem bank_oracle_heap :
    ∃ k rs m', (∀ n, k < n →
        runAll ⟨8, 1, 10⟩ (Heap.memory WORD_SIZE 8) n
          [.init, .initCheck, .alloc 5, .alloc 5, .short 0 2, .alloc 1, .long 0] ⟨[(8, 32)], 0⟩ =
          some (none :: some true :: rs, m') ∧
        runAll ⟨8, 1, 10⟩ ((Heap.memory WORD_SIZE 8).sparing 8) n
          [.init, .initCheck, .alloc 5, .alloc 5, .short 0 2, .alloc 1, .long 0] ⟨[(8, 32)], 0⟩ =
          some (none :: some true :: rs, m')) ∧
      List.Forall₂ (fun tx r => ∀ n, tx = Tx.long n → r = some true)
        [.alloc 5, .alloc 5, .short 0 2, .alloc 1, .long 0] rs ∧
      ∃ f pre last, Ledger (Heap.memory WORD_SIZE 8) (fun a => a) (Heap.Owns 8) ⟨8, 1, 10⟩ m' f pre
        last :=
  bank_oracle Heap.lawful (Heap.lawfulAlloc (by decide)) (by decide)
    (fun _ _ hown => hown.1 rfl) (by decide) (by decide)
    ⟨by decide, by decide, by simp⟩ (by decide)

end DualStm
