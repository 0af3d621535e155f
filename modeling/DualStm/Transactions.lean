import DualStm.Accounts

/-!
# `short_tx` and `long_tx`, run alone

On a memory that holds the list of accounts, both traverse the list and come to
its end. `long_tx` sees all the money, `short_tx` makes a transfer or nothing.
Nothing is said of the memory but that it holds the words of the list, so this
goes for a memory of one's own as well as for the snapshot of an epoch.

The invariants of the two loops cut the list at the segment to visit.
-/

namespace DualStm

variable {M L : Type} {mem : Memory M ℤ} {loc : ℕ → L} {owns : M → ℕ → ℕ → Prop}
  {addrs : List ℕ} {segs : List (ℕ × ℕ)} {m : M} {f : ℕ → ℤ} {a : ℕ}

/-! ## The operations

The wrappers of the grader on a memory that holds the words of a bank: what they read is what
the words have. -/

section

variable {C : Type} {c : C}

theorem wp_read {Q : ℤ → C → M → Prop} (hh : mem.Holds loc owns addrs segs m f) (ha : a ∈ addrs) :
    (Shared.read a).wp mem Q c m ↔ Q (f a) c m := by
  simp [Shared.read, Prog.wp, hh.read a ha]

theorem wp_readSize {Q : ℕ → C → M → Prop} (hh : mem.Holds loc owns addrs segs m f)
    (ha : a ∈ addrs) : (Shared.readSize a).wp mem Q c m ↔ Q (f a).toNat c m := by
  simp [Shared.readSize, Prog.wp, hh.read a ha]

theorem wp_bindSegment {Q : AccountSegment → C → M → Prop} {b : Block} (hb : b.addr ≠ 0) :
    (AccountSegment.bind b.addr).wp mem Q c m ↔ Q b.segment c m := by
  rw [AccountSegment.bind, if_neg hb]
  rfl

theorem wp_write {Q : Unit → C → M → Prop} {v : ℤ} (hh : mem.Holds loc owns addrs segs m f)
    (hmem : mem.Lawful loc owns) (ha : a ∈ addrs)
    (hQ : ∀ m', mem.Holds loc owns addrs segs m' (Function.update f a v) → Q () c m') :
    (Shared.write a v).wp mem Q c m := by
  obtain ⟨m', hwrite, hh'⟩ := hh.write hmem ha v
  exact ⟨m', hwrite, hQ m' hh'⟩

end

/-! ## The traversals

Each walk is a loop with an invariant at its head, which says how far it is and what its locals
have added up. One turn leads to the next segment or to the end. -/

variable {blocks : List Block} {bank : WorkloadBank} {c : Tx}

/-- `long_tx` at the head of its loop, `k` segments before the end. -/
def LongInv (f : ℕ → ℤ) (blocks : List Block) (k : ℕ) (l : LongLocals) : Prop :=
  ∃ pre post, blocks = pre ++ post ∧ post.length = k ∧ Linked f l.start post 0 ∧
    l.count = totalCount pre ∧ l.sum = money f pre

/-- A pointer is null or points to an account. -/
def Points (blocks : List Block) (ptr : ℕ) : Prop := ptr = 0 ∨ ptr ∈ accounts blocks

theorem Points.of_ne_zero {ptr : ℕ} (hp : Points blocks ptr) (hne : ptr ≠ 0) :
    ptr ∈ accounts blocks := hp.resolve_left hne

/-- `short_tx` at the head of its loop. -/
def ShortInv (f : ℕ → ℤ) (blocks : List Block) (k : ℕ) (l : ShortLocals) : Prop :=
  (∃ pre b post, blocks = pre ++ b :: post ∧ post.length + 1 = k ∧
    Linked f l.start (b :: post) 0) ∧
    Points blocks l.sendPtr ∧ Points blocks l.recvPtr

theorem wp_sumAccounts {Q : Option ℤ → Tx → M → Prop} {segment : AccountSegment}
    (hh : mem.Holds loc owns addrs segs m f) : ∀ (k i : ℕ) (sum : ℤ),
    (∀ j ∈ List.range' i k, segment.account j ∈ addrs ∧ 0 ≤ f (segment.account j)) →
    ((sumAccounts segment k i sum).wp mem Q c m ↔
      Q (some (sum + ((List.range' i k).map fun j => f (segment.account j)).sum)) c m) := by
  intro k
  induction k with
  | zero =>
    intro i sum _
    simp [sumAccounts]
  | succ k ih =>
    intro i sum hacc
    rw [List.range'_succ] at hacc ⊢
    obtain ⟨⟨hmem, hpos⟩, hrest⟩ := List.forall_mem_cons.mp hacc
    rw [sumAccounts, Prog.wp_bind, wp_read hh hmem, if_neg (not_lt.mpr hpos), ih _ _ hrest,
      List.map_cons, List.sum_cons, add_assoc]

theorem longTurn_wp {k : ℕ} {l : LongLocals} (hh : mem.Holds loc owns (cells blocks) segs m f)
    (hs : Solvent bank.initBalance bank.start f blocks) (hinv : LongInv f blocks k l)
    (hc : ∃ n, c = .long n) :
    (longTurn bank l).wp mem (Sum.elim
      (fun l' c' m' => m' = m ∧ (∃ n, c' = .long n) ∧ ∃ j < k, LongInv f blocks j l')
      (fun r c' m' => m' = m ∧ r = true ∧ c' = .long (totalCount blocks))) c m := by
  obtain ⟨pre, post, rfl, hk, hlinked, hcount, hsum⟩ := hinv
  rw [longTurn]
  cases post with
  | nil =>
    -- the end of the list: all the money was seen
    rw [if_pos (show l.start = 0 from hlinked)]
    have hbal := hs.balanced
    rw [List.append_nil] at hbal ⊢
    refine ⟨rfl, ?_, by rw [hcount]⟩
    rw [beq_iff_eq, hsum, hcount, hbal]
  | cons b post =>
    obtain ⟨hstart, hne, hbcount, next, hnext, hrest⟩ := hlinked
    have hcells : ∀ a ∈ b.cells, a ∈ cells (pre ++ b :: post) := fun a =>
      cells_subset (List.mem_append_right _ List.mem_cons_self)
    have hfit : b.count ≤ b.room := hs.fits b (List.mem_append_right _ List.mem_cons_self)
    rw [if_neg (by rw [hstart]; exact hne), hstart]
    rw [Prog.wp_bind, wp_bindSegment hne, Prog.wp_bind,
      wp_readSize hh (hcells _ (by simp [Block.cells])), hbcount, Int.toNat_natCast, Prog.wp_bind,
      wp_read hh (hcells _ (by simp [Block.cells])), Prog.wp_bind, wp_sumAccounts hh]
    · simp only
      rw [Prog.wp_bind, wp_readSize hh (hcells _ (by simp [Block.cells])), hnext,
        Int.toNat_natCast]
      refine ⟨rfl, hc, post.length, by rw [← hk]; exact Nat.lt_succ_self _, pre ++ [b], post,
        by simp, rfl, hrest, ?_, ?_⟩
      · rw [totalCount_append, hcount]
        rfl
      · rw [money_append, hsum, money_cons, List.range_eq_range'.symm, Block.holders,
          List.map_cons, List.sum_cons, Block.accounts, List.map_map]
        simp only [money, holders, List.flatMap_nil, List.map_nil, List.sum_nil]
        rw [add_zero, add_assoc]
        rfl
    · intro j hj
      have hj : j < b.count := by
        have := List.mem_range'_1.mp hj
        omega
      refine ⟨hcells _ (Block.account_mem_cells (hj.trans_le hfit)), hs.nonneg _ ?_⟩
      exact List.mem_flatMap.mpr ⟨b, List.mem_append_right _ List.mem_cons_self,
        List.mem_map_of_mem (List.mem_range.mpr hj)⟩

theorem wp_transfer {p q : ℕ} (hh : mem.Holds loc owns (cells blocks) segs m f)
    (hmem : mem.Lawful loc owns) (hfit : Fits blocks) (hp : p ∈ accounts blocks)
    (hq : q ∈ accounts blocks) :
    (transfer p q).wp mem (fun _ c' m' => c' = c ∧
      ∃ f', mem.Holds loc owns (cells blocks) segs m' f' ∧ Transfers blocks f f') c m := by
  have hpc := holders_subset hfit (accounts_subset hp)
  have hqc := holders_subset hfit (accounts_subset hq)
  rw [transfer, Prog.wp_bind, wp_read hh hpc]
  split
  · rename_i hpos
    rw [Prog.wp_bind]
    apply wp_write hh hmem hpc
    intro m₁ hh₁
    rw [Prog.wp_bind, wp_read hh₁ hqc, Prog.wp_bind]
    apply wp_write hh₁ hmem hqc
    intro m₂ hh₂
    exact ⟨rfl, _, hh₂, .inr ⟨p, hp, q, hq, hpos, rfl⟩⟩
  · exact ⟨rfl, f, hh, .inl rfl⟩

theorem wp_findSend {Q : ShortLocals × Bool → Tx → M → Prop} {l : ShortLocals}
    {segment : AccountSegment} {n : ℕ} (hsend : Points blocks l.sendPtr)
    (hrecv : Points blocks l.recvPtr) (hacc : ∀ i < n, segment.account i ∈ accounts blocks)
    (hQ : ∀ l' found, Points blocks l'.sendPtr → Points blocks l'.recvPtr →
      (found = true → l'.sendPtr ∈ accounts blocks ∧ l'.recvPtr ∈ accounts blocks) →
      Q (l', found) (.short l'.sendId l'.recvId) m) :
    (findSend segment n l).wp mem Q (.short l.sendId l.recvId) m := by
  rw [findSend]
  split
  · split
    · rename_i hlt
      refine hQ _ _ (.inr (hacc _ hlt)) hrecv fun hfound => ⟨hacc _ hlt, hrecv.of_ne_zero ?_⟩
      simpa using hfound
    · exact hQ { l with sendId := l.sendId - n } false hsend hrecv (by simp)
  · exact hQ l false hsend hrecv (by simp)

theorem wp_findRecv {Q : ShortLocals × Bool → Tx → M → Prop} {l : ShortLocals}
    {segment : AccountSegment} {n : ℕ} (hsend : Points blocks l.sendPtr)
    (hrecv : Points blocks l.recvPtr) (hacc : ∀ i < n, segment.account i ∈ accounts blocks)
    (hQ : ∀ l' found, Points blocks l'.sendPtr → Points blocks l'.recvPtr →
      (found = true → l'.sendPtr ∈ accounts blocks ∧ l'.recvPtr ∈ accounts blocks) →
      Q (l', found) (.short l'.sendId l'.recvId) m) :
    (findRecv segment n l).wp mem Q (.short l.sendId l.recvId) m := by
  rw [findRecv]
  split
  · split
    · rename_i hlt
      refine hQ _ _ hsend (.inr (hacc _ hlt)) fun hfound => ⟨hsend.of_ne_zero ?_, hacc _ hlt⟩
      simpa using hfound
    · exact hQ { l with recvId := l.recvId - n } false hsend hrecv (by simp)
  · exact hQ l false hsend hrecv (by simp)

theorem shortTurn_wp {k : ℕ} {l : ShortLocals} (hh : mem.Holds loc owns (cells blocks) segs m f)
    (hmem : mem.Lawful loc owns) (hfit : Fits blocks) (hinv : ShortInv f blocks k l)
    (hc : c = .short l.sendId l.recvId) :
    (shortTurn l).wp mem (Sum.elim
      (fun l' c' m' => m' = m ∧ c' = .short l'.sendId l'.recvId ∧ ∃ j < k, ShortInv f blocks j l')
      (fun _ c' m' => (∃ i j, c' = .short i j) ∧
        ∃ f', mem.Holds loc owns (cells blocks) segs m' f' ∧ Transfers blocks f f')) c m := by
  subst hc
  obtain ⟨⟨pre, b, post, hblocks, hk, hlinked⟩, hsend, hrecv⟩ := hinv
  obtain ⟨hstart, hne, hbcount, next, hnext, hrest⟩ := hlinked
  have hb : b ∈ blocks := by simp [hblocks]
  have hcells : ∀ a ∈ b.cells, a ∈ cells blocks := fun a => cells_subset hb
  have hacc : ∀ i, i < b.count → b.segment.account i ∈ accounts blocks := fun i hi =>
    List.mem_flatMap.mpr ⟨b, hb, List.mem_map_of_mem (List.mem_range.mpr hi)⟩
  have htransfer : ∀ {p q i j : ℕ}, p ∈ accounts blocks → q ∈ accounts blocks →
      (transfer p q).wp mem (fun r c' m' => (∃ i j, c' = .short i j) ∧
        ∃ f', mem.Holds loc owns (cells blocks) segs m' f' ∧ Transfers blocks f f')
        (.short i j) m := fun hp hq =>
    Prog.wp_mono (wp_transfer hh hmem hfit hp hq) fun _ c' m' h => ⟨⟨_, _, h.1⟩, h.2⟩
  -- the end of a turn: on to the next segment, or no such account
  have hgo : ∀ l' : ShortLocals, Points blocks l'.sendPtr → Points blocks l'.recvPtr →
      (do
        let start ← Shared.readSize b.segment.next
        if start = 0 then return .inr false
        else return .inl { l' with start } : Prog Tx ℤ (ShortLocals ⊕ Bool)).wp mem (Sum.elim
      (fun l' c' m' => m' = m ∧ c' = .short l'.sendId l'.recvId ∧ ∃ j < k, ShortInv f blocks j l')
      (fun _ c' m' => (∃ i j, c' = .short i j) ∧
        ∃ f', mem.Holds loc owns (cells blocks) segs m' f' ∧ Transfers blocks f f'))
        (.short l'.sendId l'.recvId) m := by
    intro l' hsend hrecv
    rw [Prog.wp_bind, wp_readSize hh (hcells _ (by simp [Block.cells])), hnext, Int.toNat_natCast]
    split
    · exact ⟨⟨_, _, rfl⟩, f, hh, .inl rfl⟩
    · rename_i hn
      cases post with
      | nil => exact absurd hrest hn
      | cons b' post =>
        refine ⟨rfl, rfl, post.length + 1, by simp [← hk], ⟨pre ++ [b], b', post, by simp [hblocks],
          rfl, hrest⟩, hsend, hrecv⟩
  rw [shortTurn, hstart, Prog.wp_bind, wp_bindSegment hne, Prog.wp_bind,
    wp_readSize hh (hcells _ (by simp [Block.cells])), hbcount, Int.toNat_natCast, Prog.wp_bind]
  apply wp_findSend hsend hrecv hacc
  intro l₁ found hsend hrecv hfound
  dsimp only
  cases found with
  | true =>
    rw [if_pos rfl, Prog.wp_bind]
    exact htransfer (hfound rfl).1 (hfound rfl).2
  | false =>
    rw [if_neg (by simp), Prog.wp_bind]
    apply wp_findRecv hsend hrecv hacc
    intro l₂ found hsend hrecv hfound
    dsimp only
    cases found with
    | true =>
      rw [if_pos rfl, Prog.wp_bind]
      exact htransfer (hfound rfl).1 (hfound rfl).2
    | false =>
      rw [if_neg (by simp)]
      exact hgo l₂ hsend hrecv

/-! ## Both of them

`long_tx` and `short_tx` as one: where a walk is, and what one turn of it does. -/

/-- `short_tx` or `long_tx` at the head of its loop, `k` segments before the end. -/
def Visits (f : ℕ → ℤ) (blocks : List Block) (k : ℕ) : Locals → Tx → Prop
  | .long l, c => LongInv f blocks k l ∧ ∃ n, c = .long n
  | .short l, c => ShortInv f blocks k l ∧ c = .short l.sendId l.recvId
  | _, _ => False

/-- The transactions that neither create nor destroy an account. -/
def Tx.isTransfer : Tx → Bool
  | .long _ => true
  | .short _ _ => true
  | _ => false

section

variable {P : Tx → Prop}

theorem saves_read : (Shared.read a).Saves P := fun _ => trivial

theorem saves_readSize : (Shared.readSize a).Saves P := fun _ => trivial

theorem saves_write {v : ℤ} : (Shared.write a v).Saves P := trivial

theorem saves_bindSegment : (AccountSegment.bind a).Saves P := by
  rw [AccountSegment.bind]
  split <;> trivial

theorem saves_sumAccounts {segment : AccountSegment} : ∀ (k i : ℕ) (sum : ℤ),
    (sumAccounts segment k i sum).Saves P := by
  intro k
  induction k with
  | zero => exact fun _ _ => trivial
  | succ k ih =>
    intro i sum
    apply Prog.saves_bind saves_read
    intro balance
    split
    · trivial
    · exact ih _ _

theorem saves_transfer {p q : ℕ} : (transfer p q).Saves P := by
  apply Prog.saves_bind saves_read
  intro sendVal
  split
  · exact Prog.saves_bind saves_write fun _ => Prog.saves_bind saves_read fun _ =>
      Prog.saves_bind saves_write fun _ => trivial
  · trivial

end

theorem saves_find {segment : AccountSegment} {n : ℕ} {l : ShortLocals} :
    (findSend segment n l).Saves (fun c => c.isTransfer = true) ∧
      (findRecv segment n l).Saves fun c => c.isTransfer = true := by
  rw [findSend, findRecv]
  constructor
  all_goals
    split
    · split
      · trivial
      · exact ⟨rfl, trivial⟩
    · trivial

/-- The closures of `long_tx` and `short_tx` stay what they are. -/
theorem saves_turn {l : Locals} {c : Tx} {k : ℕ} (hv : Visits f blocks k l c) :
    (turn bank l).Saves fun c => c.isTransfer = true := by
  cases l with
  | long l =>
    refine Prog.saves_bind ?_ fun _ => trivial
    rw [longTurn]
    split
    · exact ⟨rfl, trivial⟩
    · refine Prog.saves_bind saves_bindSegment fun _ => Prog.saves_bind saves_readSize fun _ =>
        Prog.saves_bind saves_read fun _ => Prog.saves_bind (saves_sumAccounts _ _ _) fun r => ?_
      cases r with
      | none => trivial
      | some sum => exact Prog.saves_bind saves_readSize fun _ => trivial
  | short l =>
    refine Prog.saves_bind ?_ fun _ => trivial
    refine Prog.saves_bind saves_bindSegment fun _ => Prog.saves_bind saves_readSize fun _ =>
      Prog.saves_bind saves_find.1 fun r => ?_
    dsimp only
    split
    · exact Prog.saves_bind saves_transfer fun _ => trivial
    · apply Prog.saves_bind saves_find.2
      intro r
      split
      · exact Prog.saves_bind saves_transfer fun _ => trivial
      · apply Prog.saves_bind saves_readSize
        intro _
        split <;> trivial
  | _ => exact hv.elim

theorem visits_enter {tx : Tx} (htx : tx.isTransfer = true) (hstart : bank.start ≠ 0)
    (hlinked : Linked f bank.start blocks 0) :
    Visits f blocks blocks.length (enter bank tx) tx := by
  cases tx with
  | long n => exact ⟨⟨[], blocks, rfl, rfl, hlinked, rfl, rfl⟩, n, rfl⟩
  | short i j =>
    cases blocks with
    | nil => exact absurd hlinked hstart
    | cons b blocks => exact ⟨⟨⟨[], b, blocks, rfl, rfl, hlinked⟩, .inl rfl, .inl rfl⟩, rfl⟩
  | _ => cases htx

/-- **One turn** leads on in the list, without a write, or to the end: a `long_tx`
returns `true`, and the memory is that before it but for a transfer. -/
theorem turn_wp {k : ℕ} {l : Locals} (hh : mem.Holds loc owns (cells blocks) segs m f)
    (hmem : mem.Lawful loc owns) (hs : Solvent bank.initBalance bank.start f blocks)
    (hv : Visits f blocks k l c) :
    (turn bank l).wp mem (Sum.elim
      (fun l' c' m' => m' = m ∧ c'.isRo = c.isRo ∧ ∃ j < k, Visits f blocks j l' c')
      (fun r c' m' => c'.isRo = c.isRo ∧ (c.isRo = true → r = some true) ∧
        ∃ f', mem.Holds loc owns (cells blocks) segs m' f' ∧ Transfers blocks f f')) c m := by
  cases l with
  | long l =>
    obtain ⟨hinv, n, rfl⟩ := hv
    refine Prog.wp_bind.mpr (Prog.wp_mono (longTurn_wp hh hs hinv ⟨n, rfl⟩) ?_)
    intro r c' m' h
    rcases r with l' | r
    · obtain ⟨rfl, ⟨n', rfl⟩, j, hj, hinv'⟩ := h
      exact ⟨rfl, rfl, j, hj, hinv', n', rfl⟩
    · obtain ⟨rfl, rfl, rfl⟩ := h
      exact ⟨rfl, fun _ => rfl, f, hh, .inl rfl⟩
  | short l =>
    obtain ⟨hinv, rfl⟩ := hv
    refine Prog.wp_bind.mpr (Prog.wp_mono (shortTurn_wp hh hmem hs.fits hinv rfl) ?_)
    intro r c' m' h
    rcases r with l' | r
    · obtain ⟨rfl, rfl, j, hj, hinv'⟩ := h
      exact ⟨rfl, rfl, j, hj, hinv', rfl⟩
    · obtain ⟨⟨i, j, rfl⟩, hf'⟩ := h
      exact ⟨rfl, by rintro ⟨⟩, hf'⟩
  | _ => exact hv.elim

end DualStm
