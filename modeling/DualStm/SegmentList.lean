import DualStm.Reference

/-!
# The list of segments

The headers of the live allocated segments, each once, are the nodes of the list that
`allocs` heads, in the order in which `tm_alloc` returned the segments: whatever is allocated,
freed and written, and in whatever order. So `tm_free` finds the neighbours of a node, and
`tm_destroy` finds all nodes.

An edit changes the header of one node. What is said about another header, or about a segment,
outlives it because no two live blocks overlap.
-/

namespace DualStm

namespace Reference

/-! ## Headers

A header is the first 16 bytes of a live block. Live blocks do not overlap, so a store to one
header leaves the others as they are. -/

section

variable {s s₁ s₂ s' : State} {x y p q sn : Ptr} {a n : ℕ}

/-- There is a header at `x`, in a live block. -/
def State.IsNode (s : State) (x : Ptr) : Prop :=
  ∃ b ∈ s.heap.live, b.base = x.toNat ∧ sizeofNode.toNat ≤ b.size

theorem sizeofNode_toNat : sizeofNode.toNat = 16 := rfl

theorem State.IsNode.valid (hx : s.IsNode x) : s.heap.Valid x.toNat 16 := by
  obtain ⟨b, hb, hbase, hsize⟩ := hx
  rw [sizeofNode_toNat] at hsize
  exact ⟨b, hb, hbase.le, by omega⟩

theorem State.IsNode.valid_prev (hx : s.IsNode x) : s.heap.Valid x.toNat 8 := by
  obtain ⟨b, hb, hle, hle'⟩ := hx.valid
  exact ⟨b, hb, hle, by omega⟩

theorem State.IsNode.valid_next (hx : s.IsNode x) : s.heap.Valid (x.toNat + 8) 8 := by
  obtain ⟨b, hb, hle, hle'⟩ := hx.valid
  exact ⟨b, hb, by omega, by omega⟩

/-- There is no header at `NULL`. -/
theorem State.IsNode.ne_zero (hx : s.IsNode x) : x ≠ 0 := by
  obtain ⟨b, hb, hbase, -⟩ := hx
  rintro rfl
  have hpos := (s.heap.inside b hb).1
  rw [hbase] at hpos
  exact absurd hpos (Nat.lt_irrefl 0)

/-- Two headers do not overlap. -/
theorem State.IsNode.apart (hx : s.IsNode x) (hy : s.IsNode y) (hne : x ≠ y) :
    x.toNat + 16 ≤ y.toNat ∨ y.toNat + 16 ≤ x.toNat := by
  obtain ⟨b, hb, hbase, hsize⟩ := hx
  obtain ⟨b', hb', hbase', hsize'⟩ := hy
  rw [sizeofNode_toNat] at hsize hsize'
  have hapart := ByteHeap.apart_of_mem hb hb' (by
    rintro rfl
    exact hne (UInt64.toNat_inj.mp (hbase.symm.trans hbase')))
  exact hapart.covers ⟨hbase.le, by omega⟩ ⟨hbase'.le, by omega⟩

/-- A step that leaves all blocks, and changes at most the header at `x`, unless that is
`NULL`. -/
structure Edit (x : Ptr) (s s' : State) : Prop where
  /-- the blocks -/
  live : s'.heap.live = s.heap.live
  /-- nothing is released -/
  freed : s'.heap.freed = s.heap.freed
  /-- the region is where it was -/
  shared : s'.shared = s.shared
  /-- the region has the same first segment -/
  first : s'.region.first = s.region.first
  /-- `align` -/
  align : s'.region.align = s.region.align
  /-- what is elsewhere -/
  bytes : ∀ a n, (x ≠ 0 → a + n ≤ x.toNat ∨ x.toNat + 16 ≤ a) →
    readBytes s'.heap.bytes a n = readBytes s.heap.bytes a n

theorem Edit.isNode (he : Edit x s s') : s'.IsNode y ↔ s.IsNode y := by
  rw [State.IsNode, State.IsNode, he.live]

/-- A store to one header leaves the others as they were. -/
theorem Edit.links (he : Edit x s s') (hx : s.IsNode x) (hy : s.IsNode y) (hne : y ≠ x) :
    s'.prev y = s.prev y ∧ s'.next y = s.next y := by
  have hapart := hy.apart hx hne
  constructor
  · refine ByteHeap.load64_congr (ByteHeap.valid_congr he.live) (he.bytes _ _ ?_)
    intro _
    omega
  · refine ByteHeap.load64_congr (ByteHeap.valid_congr he.live) (he.bytes _ _ ?_)
    intro _
    omega

/-- A store within the header at `x` is an edit of this header. -/
theorem edit_of_store {heap : ByteHeap} {bs : List UInt8} (hx : x ≠ 0)
    (hs : s.heap.store a bs = some heap) (hle : x.toNat ≤ a)
    (hle' : a + bs.length ≤ x.toNat + 16) :
    Edit x s { s with heap := heap } := by
  obtain ⟨-, hlive, hfreed, hbytes⟩ := ByteHeap.store_eq_some hs
  refine ⟨hlive, hfreed, rfl, rfl, rfl, ?_⟩
  intro c n hc
  have hc := hc hx
  rw [hbytes, readBytes_blit_apart]
  omega

/-- `sn->prev = p` is an edit of the header, and leaves its `next`. -/
theorem State.IsNode.setPrev (hx : s.IsNode x) : ∃ s', s.setPrev x p = some s' ∧ Edit x s s' ∧
    s'.region = s.region ∧ s'.prev x = some p ∧ s'.next x = s.next x := by
  have hs := hx.valid_prev.store64 (v := p)
  refine ⟨_, by rw [State.setPrev, hs, Option.map_some], edit_of_store hx.ne_zero hs le_rfl ?_, rfl,
    ByteHeap.load64_store64 hs, ByteHeap.load64_store64_apart hs (.inl le_rfl)⟩
  rw [length_bytesOf]
  omega

/-- `sn->next = p` is an edit of the header, and leaves its `prev`. -/
theorem State.IsNode.setNext (hx : s.IsNode x) : ∃ s', s.setNext x p = some s' ∧ Edit x s s' ∧
    s'.region = s.region ∧ s'.next x = some p ∧ s'.prev x = s.prev x := by
  have hs := hx.valid_next.store64 (v := p)
  refine ⟨_, by rw [State.setNext, hs, Option.map_some],
    edit_of_store hx.ne_zero hs (Nat.le_add_right _ _) ?_, rfl,
    ByteHeap.load64_store64 hs, ByteHeap.load64_store64_apart hs (.inr le_rfl)⟩
  rw [length_bytesOf]

/-! ## Taking a node out

A node is taken out by two stores to its neighbours, one of which may be the head of the list.
The list without the node is linked in both ways again. -/

/-- The node before a node goes on to the one behind it. -/
theorem unlinkPrev_spec (hp : p ≠ 0 → s.IsNode p)
    (hprev : s.prev y = some p) (hnext : s.next y = some q) :
    ∃ s', unlinkPrev s y = some s' ∧ Edit p s s' ∧
      s'.region.allocs = (if p = 0 then q else s.region.allocs) ∧ (p ≠ 0 → s'.next p = some q) ∧
      (∀ x, s.IsNode x → x ≠ p → s'.next x = s.next x) ∧
      ∀ x, s.IsNode x → s'.prev x = s.prev x := by
  simp only [unlinkPrev, hprev, hnext, Option.bind_eq_bind, Option.bind_some, Option.pure_def]
  by_cases h0 : p = 0
  · subst h0
    exact ⟨s.setAllocs q, rfl, ⟨rfl, rfl, rfl, rfl, rfl, fun _ _ _ => rfl⟩, rfl,
      fun h => absurd rfl h, fun _ _ _ => rfl, fun _ _ => rfl⟩
  · have hp := hp h0
    obtain ⟨s', hs', he, hregion, hself, hsame⟩ := hp.setNext (p := q)
    rw [if_pos h0, if_neg h0]
    refine ⟨s', hs', he, by rw [hregion], fun _ => hself,
      fun x hx hne => (he.links hp hx hne).2, fun x hx => ?_⟩
    obtain rfl | hne := eq_or_ne x p
    · exact hsame
    · exact (he.links hp hx hne).1

/-- `if (q) q->prev = p` is an edit of the header at `q`, if there is one. -/
theorem setPrev_unless_null (hq : q ≠ 0 → s.IsNode q) :
    ∃ s', (if q ≠ 0 then s.setPrev q p else some s) = some s' ∧ Edit q s s' ∧
      s'.region = s.region ∧ (q ≠ 0 → s'.prev q = some p) ∧
      (∀ x, s.IsNode x → x ≠ q → s'.prev x = s.prev x) ∧
      ∀ x, s.IsNode x → s'.next x = s.next x := by
  by_cases h0 : q = 0
  · subst h0
    exact ⟨s, if_neg (fun h => h rfl), ⟨rfl, rfl, rfl, rfl, rfl, fun _ _ _ => rfl⟩, rfl,
      fun h => absurd rfl h, fun _ _ _ => rfl, fun _ _ => rfl⟩
  · have hq := hq h0
    obtain ⟨s', hs', he, hregion, hself, hsame⟩ := hq.setPrev (p := p)
    refine ⟨s', (if_pos h0).trans hs', he, hregion, fun _ => hself,
      fun x hx hne => (he.links hq hx hne).1, fun x hx => ?_⟩
    obtain rfl | hne := eq_or_ne x q
    · exact hsame
    · exact (he.links hq hx hne).2

/-- `allocs` heads a list of these nodes, which are headers of live blocks. -/
structure Listed (s : State) (nodes : List Ptr) : Prop where
  /-- the first of them -/
  head : s.region.allocs = nodes.headD 0
  /-- the links -/
  linked : DoublyLinked s.next s.prev 0 nodes 0
  /-- each once -/
  nodup : nodes.Nodup
  /-- the headers -/
  isNode : ∀ x ∈ nodes, s.IsNode x

/-- The list is the same where its headers are. -/
theorem Listed.congr {nodes : List Ptr} (hl : Listed s nodes)
    (hallocs : s'.region.allocs = s.region.allocs)
    (hx : ∀ x ∈ nodes, s'.IsNode x ∧ s'.prev x = s.prev x ∧ s'.next x = s.next x) :
    Listed s' nodes :=
  ⟨hallocs.trans hl.head,
    hl.linked.congr (fun x hmem => (hx x hmem).2.2) fun x hmem => (hx x hmem).2.1, hl.nodup,
    fun x hmem => (hx x hmem).1⟩

/-- The first two statements of `tm_free`. -/
theorem Listed.unlink {l₁ l₂ : List Ptr} (hl : Listed s (l₁ ++ y :: l₂)) :
    ∃ s₁ s', unlinkPrev s y = some s₁ ∧ unlinkNext s₁ y = some s' ∧ Listed s' (l₁ ++ l₂) ∧
      s'.heap.live = s.heap.live ∧ s'.heap.freed = s.heap.freed ∧ s'.shared = s.shared ∧
      s'.region.first = s.region.first ∧ s'.region.align = s.region.align ∧
      ∀ a n, (∀ x ∈ l₁ ++ l₂, a + n ≤ x.toNat ∨ x.toNat + 16 ≤ a) →
        readBytes s'.heap.bytes a n = readBytes s.heap.bytes a n := by
  obtain ⟨hhead, hlinked, hnodup, hnode⟩ := hl
  have hy : s.IsNode y := hnode y (List.mem_append_right _ List.mem_cons_self)
  rw [List.nodup_middle, List.nodup_cons] at hnodup
  have hmem {x : Ptr} (hx : x ∈ l₁ ++ l₂) : s.IsNode x ∧ y ≠ x := by
    refine ⟨hnode x ?_, fun hyx => hnodup.1 (hyx ▸ hx)⟩
    rw [List.mem_append, List.mem_cons]
    exact (List.mem_append.mp hx).imp_right .inr
  obtain ⟨-, hprev, hnext, -⟩ := doublyLinked_append.mp hlinked
  -- the neighbours are nodes, unless they are `NULL`
  have hlast {x : Ptr} (h0 : x ≠ 0) : l₁.getLast? = some x ↔ l₁.getLastD 0 = x :=
    getLast?_eq_some_iff_getLastD h0
  have hfirst {x : Ptr} (h0 : x ≠ 0) : l₂.head? = some x ↔ l₂.headD 0 = x :=
    head?_eq_some_iff_headD h0
  have hp (h0 : l₁.getLastD 0 ≠ 0) : l₁.getLastD 0 ∈ l₁ ++ l₂ :=
    List.mem_append_left _ (List.mem_of_getLast? ((hlast h0).mpr rfl))
  have hq (h0 : l₂.headD 0 ≠ 0) : l₂.headD 0 ∈ l₁ ++ l₂ :=
    List.mem_append_right _ (List.mem_of_head? ((hfirst h0).mpr rfl))
  have hyp : y ≠ l₁.getLastD 0 := fun hyp => (hmem (hp (hyp ▸ hy.ne_zero))).2 hyp
  obtain ⟨s₁, hs₁, he₁, hallocs₁, hself₁, hnext₁, hprev₁⟩ :=
    unlinkPrev_spec (fun h0 => (hmem (hp h0)).1) hprev hnext
  obtain ⟨s₂, hs₂, he₂, hregion₂, hself₂, hprev₂, hnext₂⟩ :=
    setPrev_unless_null (p := l₁.getLastD 0) fun h0 => he₁.isNode.mpr (hmem (hq h0)).1
  have hs₂ : unlinkNext s₁ y = some s₂ := by
    simp only [unlinkNext, (hnext₁ y hy hyp).trans hnext, (hprev₁ y hy).trans hprev,
      Option.bind_eq_bind, Option.bind_some]
    exact hs₂
  have hnode₁ {x : Ptr} (hx : x ∈ l₁ ++ l₂) : s₁.IsNode x := he₁.isNode.mpr (hmem hx).1
  refine ⟨s₁, s₂, hs₁, hs₂, ⟨?_, ?_, hnodup.2, fun x hx => he₂.isNode.mpr (hnode₁ hx)⟩,
    he₂.live.trans he₁.live, he₂.freed.trans he₁.freed, he₂.shared.trans he₁.shared,
    he₂.first.trans he₁.first, he₂.align.trans he₁.align, ?_⟩
  · -- the head of the list moves on exactly when it is the node itself
    rw [headD_append, hregion₂, hallocs₁]
    cases l₁ with
    | nil => exact if_pos rfl
    | cons x l₁ =>
      have h0 : (x :: l₁).getLastD 0 ≠ 0 := by
        rw [List.getLastD_cons]
        exact (hmem (List.mem_append_left _ List.getLastD_mem_cons)).1.ne_zero
      rw [if_neg h0, hhead]
      rfl
  · refine hlinked.unlink hnodup.2 ?_ ?_ ?_ ?_
    · intro x hx
      have hx' := List.mem_append_left l₂ (List.mem_of_getLast? hx)
      have h0 := (hmem hx').1.ne_zero
      obtain rfl := (hlast h0).mp hx
      exact (hnext₂ _ (hnode₁ hx')).trans (hself₁ h0)
    · intro x hx
      have hx' := List.mem_append_right l₁ (List.mem_of_head? hx)
      have h0 := (hmem hx').1.ne_zero
      obtain rfl := (hfirst h0).mp hx
      exact hself₂ h0
    · intro x hx hne
      have hne := fun hxp => hne ((hlast (hmem hx).1.ne_zero).mpr hxp)
      exact (hnext₂ x (hnode₁ hx)).trans (hnext₁ x (hmem hx).1 (Ne.symm hne))
    · intro x hx hne
      have hne := fun hxq => hne ((hfirst (hmem hx).1.ne_zero).mpr hxq)
      exact (hprev₂ x (hnode₁ hx) (Ne.symm hne)).trans (hprev₁ x (hmem hx).1)
  · intro a n ha
    exact (he₂.bytes a n fun h0 => ha _ (hq h0)).trans (he₁.bytes a n fun h0 => ha _ (hp h0))

/-- `free` of a live block takes the block out of the heap. -/
theorem State.free_of_mem {b : ByteBlock} (hb : b ∈ s.heap.live) (hbase : b.base = y.toNat) :
    ∃ s', s.free y = some s' ∧
      s'.heap.live = (s.heap.live.eraseP fun b => b.base == y.toNat) ∧
      s'.heap.freed = b :: s.heap.freed ∧ s'.heap.bytes = s.heap.bytes ∧ s'.shared = s.shared ∧
      s'.region = s.region := by
  obtain ⟨heap, hfree, hlive, hbytes, hfreed⟩ := ByteHeap.free_of_mem hb
  rw [hbase] at hfree hlive
  exact ⟨{ s with heap := heap }, by rw [State.free, hfree, Option.map_some], hlive, hfreed,
    hbytes, rfl, rfl⟩

/-- `free` of the block that is listed first leaves the others as they are listed. -/
theorem State.free_head {b : ByteBlock} {rest : List ByteBlock} (hlive : s.heap.live = b :: rest)
    (hbase : b.base = y.toNat) :
    ∃ s', s.free y = some s' ∧ s'.heap.live = rest ∧ s'.heap.freed = b :: s.heap.freed ∧
      s'.shared = s.shared ∧ s'.region = s.region := by
  obtain ⟨heap, hfree, hlive', -, hfreed⟩ := ByteHeap.free_of_head hlive
  rw [hbase] at hfree
  exact ⟨{ s with heap := heap }, by rw [State.free, hfree, Option.map_some], hlive', hfreed, rfl,
    rfl⟩

/-- The headers of other blocks stay when a block is freed. -/
theorem State.IsNode.erase (hx : s.IsNode x) (hne : x ≠ y)
    (hlive : s'.heap.live = s.heap.live.eraseP fun b => b.base == y.toNat)
    (hbytes : s'.heap.bytes = s.heap.bytes) :
    s'.IsNode x ∧ s'.prev x = s.prev x ∧ s'.next x = s.next x := by
  have hx' : s'.IsNode x := by
    obtain ⟨b, hb, hbase, hsize⟩ := hx
    refine ⟨b, ?_, hbase, hsize⟩
    rw [hlive, List.mem_eraseP_of_neg]
    · exact hb
    · rw [hbase, beq_iff_eq]
      exact fun heq => hne (UInt64.toNat_inj.mp heq)
  exact ⟨hx',
    ByteHeap.load64_congr (iff_of_true hx'.valid_prev hx.valid_prev)
      (congrArg (readBytes · _ _) hbytes),
    ByteHeap.load64_congr (iff_of_true hx'.valid_next hx.valid_next)
      (congrArg (readBytes · _ _) hbytes)⟩

/-- `tm_free` takes a node out of the list and frees its block. -/
theorem Listed.tmFree {l₁ l₂ : List Ptr} (hl : Listed s (l₁ ++ y :: l₂)) :
    ∃ s', tmFree s (y + sizeofNode) = some s' ∧ Listed s' (l₁ ++ l₂) ∧
      s'.heap.live = (s.heap.live.eraseP fun b => b.base == y.toNat) ∧
      s'.shared = s.shared ∧ s'.region.first = s.region.first ∧
      s'.region.align = s.region.align ∧
      ∀ a n, (∀ x ∈ l₁ ++ l₂, a + n ≤ x.toNat ∨ x.toNat + 16 ≤ a) →
        readBytes s'.heap.bytes a n = readBytes s.heap.bytes a n := by
  have hy := hl.isNode y (List.mem_append_right _ List.mem_cons_self)
  have hno := hl.nodup
  rw [List.nodup_middle, List.nodup_cons] at hno
  obtain ⟨s₁, s₂, hs₁, hs₂, hl₂, hlive₂, -, hshared, hfirst, halign, hbytes₂⟩ := hl.unlink
  obtain ⟨b, hb, hbase, -⟩ := hy
  obtain ⟨s', hs', hlive, -, hbytes, hshared', hregion⟩ := State.free_of_mem (hlive₂ ▸ hb) hbase
  have hkeep {x : Ptr} (hx : x ∈ l₁ ++ l₂) :=
    (hl₂.isNode x hx).erase (y := y) (fun hxy => hno.1 (hxy ▸ hx)) hlive hbytes
  refine ⟨s', ?_, hl₂.congr (by rw [hregion]) fun x hx => hkeep hx, hlive₂ ▸ hlive,
    hshared'.trans hshared, hregion ▸ hfirst, hregion ▸ halign, fun a n ha => ?_⟩
  · simp only [Reference.tmFree, UInt64.add_sub_cancel, hs₁, hs₂, hs', Option.bind_eq_bind,
      Option.bind_some]
  · rw [hbytes]
    exact hbytes₂ a n ha

/-! ## Putting a node in

`tm_alloc` takes a block, fills it, and puts its header before the head of the list. The old
head is the only header that is stored to. -/

/-- The environment may grant this block to `tm_alloc`. -/
def Granted (s : State) (size : UInt64) (g : Grant) : Prop :=
  sizeofNode.toNat + size.toNat < 2 ^ 64 ∧
    g.ptr % (if s.region.align < sizeofPtr then sizeofPtr else s.region.align) = 0 ∧
    s.heap.Fresh ⟨g.ptr.toNat, sizeofNode.toNat + size.toNat⟩

theorem malloc_eq_some {heap heap' : ByteHeap} {size : ℕ} {g : Grant} {r : Option Ptr}
    (hs : malloc heap size (some g) = some (heap', r)) :
    heap.alloc ⟨g.ptr.toNat, size⟩ g.junk = some heap' ∧ r = some g.ptr := by
  rw [malloc] at hs
  obtain ⟨heap, halloc, heq⟩ := Option.map_eq_some_iff.mp hs
  obtain ⟨rfl, rfl⟩ := Prod.mk.inj heq
  exact ⟨halloc, rfl⟩

theorem posixMemalign_eq_some {heap heap' : ByteHeap} {align size : UInt64} {g : Grant}
    {r : Option Ptr} (hs : posixMemalign heap align size (some g) = some (heap', r)) :
    g.ptr % align = 0 ∧ heap.Fresh ⟨g.ptr.toNat, size.toNat⟩ ∧
      heap.alloc ⟨g.ptr.toNat, size.toNat⟩ g.junk = some heap' ∧ r = some g.ptr := by
  rw [posixMemalign] at hs
  split at hs
  · rename_i halign
    obtain ⟨halloc, rfl⟩ := malloc_eq_some hs
    exact ⟨halign, (ByteHeap.alloc_eq_some halloc).1, halloc, rfl⟩
  · cases hs

theorem add_lt_of_store {heap heap' : ByteHeap} {bs : List UInt8}
    (hs : heap.store a bs = some heap') : a + bs.length < 2 ^ 64 := by
  obtain ⟨⟨b, hb, -, hle⟩, -⟩ := ByteHeap.store_eq_some hs
  exact lt_of_le_of_lt hle (heap.inside b hb).2

/-- What `tm_alloc` needs to have a result: nothing is granted, or a block of the heap that is
large enough. -/
theorem tmAlloc_eq_some {size : UInt64} {grant : Option Grant} {r : Alloc}
    (hs : tmAlloc s size grant = some (s', r)) :
    (grant = none ∧ s' = s ∧ r = .nomem) ∨ ∃ g, grant = some g ∧ Granted s size g := by
  rw [tmAlloc] at hs
  obtain ⟨⟨heap, o⟩, hmemalign, hs⟩ := Option.bind_eq_some_iff.mp hs
  cases grant with
  | none =>
    obtain ⟨rfl, rfl⟩ := Prod.mk.inj (Option.some.inj hmemalign)
    obtain ⟨rfl, rfl⟩ := Prod.mk.inj (Option.some.inj hs)
    exact .inl ⟨rfl, rfl, rfl⟩
  | some g =>
    obtain ⟨halign, hf, hheap, rfl⟩ := posixMemalign_eq_some hmemalign
    refine .inr ⟨g, rfl, ?_⟩
    obtain ⟨s₁, hs₁, hs⟩ := Option.bind_eq_some_iff.mp hs
    obtain ⟨s₂, hs₂, hs⟩ := Option.bind_eq_some_iff.mp hs
    obtain ⟨s₃, hs₃, hs⟩ := Option.bind_eq_some_iff.mp hs
    obtain ⟨s₄, hs₄, -⟩ := Option.bind_eq_some_iff.mp hs
    -- `sn->next` and the last byte of the segment are within blocks
    obtain ⟨heap₂, hnext, -⟩ := Option.map_eq_some_iff.mp hs₂
    obtain ⟨heap₄, hcopy, -⟩ := Option.map_eq_some_iff.mp hs₄
    have hlt := add_lt_of_store hnext
    have hlt' := add_lt_of_store hcopy
    rw [length_bytesOf] at hlt
    rw [List.length_replicate, UInt64.toNat_add, sizeofNode_toNat] at hlt'
    have hsum : sizeofNode.toNat + size.toNat < 2 ^ 64 := by
      rw [sizeofNode_toNat]
      omega
    refine ⟨hsum, halign, ?_⟩
    rwa [UInt64.toNat_add, Nat.mod_eq_of_lt hsum] at hf

/-- A new block beside the old ones leaves their bytes and their headers. -/
theorem alloc_keeps {heap : ByteHeap} {b : ByteBlock} {junk : ℕ → UInt8}
    (hs : s.heap.alloc b junk = some heap) :
    (∀ a n, s.heap.Valid a n → readBytes heap.bytes a n = readBytes s.heap.bytes a n) ∧
      ∀ x, s.IsNode x → State.IsNode { s with heap := heap } x ∧
        State.prev { s with heap := heap } x = s.prev x ∧
        State.next { s with heap := heap } x = s.next x := by
  obtain ⟨-, hlive, -, hbytes⟩ := ByteHeap.alloc_eq_some hs
  have hread (a n : ℕ) (hv : s.heap.Valid a n) :
      readBytes heap.bytes a n = readBytes s.heap.bytes a n := by
    obtain ⟨b', hb', hcov⟩ := hv
    refine readBytes_congr fun c hle hlt => hbytes c ⟨b', hb', ?_⟩
    exact ⟨le_trans hcov.1 hle, le_trans hlt hcov.2⟩
  refine ⟨hread, ?_⟩
  intro x hx
  have hx' : State.IsNode { s with heap := heap } x := by
    obtain ⟨b', hb', hnode⟩ := hx
    exact ⟨b', hlive ▸ List.mem_cons_of_mem _ hb', hnode⟩
  exact ⟨hx',
    ByteHeap.load64_congr (iff_of_true hx'.valid_prev hx.valid_prev) (hread _ _ hx.valid_prev),
    ByteHeap.load64_congr (iff_of_true hx'.valid_next hx.valid_next) (hread _ _ hx.valid_next)⟩

/-- A copy to elsewhere than a header. -/
theorem store_keeps {heap : ByteHeap} {bs : List UInt8} (hs : s.heap.store a bs = some heap) :
    (∀ c n, a + bs.length ≤ c ∨ c + n ≤ a →
      readBytes heap.bytes c n = readBytes s.heap.bytes c n) ∧
      ∀ x : Ptr, a + bs.length ≤ x.toNat ∨ x.toNat + 16 ≤ a →
        State.prev { s with heap := heap } x = s.prev x ∧
          State.next { s with heap := heap } x = s.next x := by
  obtain ⟨-, hlive, -, hbytes⟩ := ByteHeap.store_eq_some hs
  have hread (c n : ℕ) (hc : a + bs.length ≤ c ∨ c + n ≤ a) :
      readBytes heap.bytes c n = readBytes s.heap.bytes c n := by
    rw [hbytes, readBytes_blit_apart hc]
  refine ⟨hread, fun x hx => ⟨?_, ?_⟩⟩
  · exact ByteHeap.load64_congr (ByteHeap.valid_congr hlive) (hread _ _ (by omega))
  · exact ByteHeap.load64_congr (ByteHeap.valid_congr hlive) (hread _ _ (by omega))

/-- The statements of `tm_alloc` that put a header in the list. -/
theorem Listed.link {nodes : List Ptr} (hl : Listed s nodes) (hsn : s.IsNode sn)
    (hno : sn ∉ nodes) :
    ∃ s₁ s₂ s₃, s.setPrev sn 0 = some s₁ ∧ s₁.setNext sn s₁.region.allocs = some s₂ ∧
      linkNext s₂ sn = some s₃ ∧ Listed (s₃.setAllocs sn) (sn :: nodes) ∧
      s₃.heap.live = s.heap.live ∧ s₃.shared = s.shared ∧ s₃.region.first = s.region.first ∧
      s₃.region.align = s.region.align ∧
      ∀ a n, (∀ x ∈ sn :: nodes, a + n ≤ x.toNat ∨ x.toNat + 16 ≤ a) →
        readBytes s₃.heap.bytes a n = readBytes s.heap.bytes a n := by
  obtain ⟨s₁, hs₁, he₁, hregion₁, hprev₁, -⟩ := hsn.setPrev (p := 0)
  have hsn₁ := he₁.isNode.mpr hsn
  obtain ⟨s₂, hs₂, he₂, -, hnext₂, hprev₂⟩ := hsn₁.setNext (p := s₁.region.allocs)
  have hsn₂ := he₂.isNode.mpr hsn₁
  rw [hregion₁, hl.head] at hnext₂
  have hne {x : Ptr} (hx : x ∈ nodes) : x ≠ sn := by
    rintro rfl
    exact hno hx
  -- the other headers are still those of `s`
  have hold {x : Ptr} (hx : x ∈ nodes) :
      s₂.IsNode x ∧ s₂.prev x = s.prev x ∧ s₂.next x = s.next x := by
    have hnode := hl.isNode x hx
    obtain ⟨hprev₁, hnext₁⟩ := he₁.links hsn hnode (hne hx)
    have hnode₁ := he₁.isNode.mpr hnode
    obtain ⟨hprev₂, hnext₂⟩ := he₂.links hsn₁ hnode₁ (hne hx)
    exact ⟨he₂.isNode.mpr hnode₁, hprev₂.trans hprev₁, hnext₂.trans hnext₁⟩
  have hhead {x : Ptr} (h0 : x ≠ 0) : nodes.head? = some x ↔ nodes.headD 0 = x :=
    head?_eq_some_iff_headD h0
  have hq (h0 : nodes.headD 0 ≠ 0) : nodes.headD 0 ∈ nodes :=
    List.mem_of_head? ((hhead h0).mpr rfl)
  have hnq : sn ≠ nodes.headD 0 := fun heq => hno (heq ▸ hq (heq ▸ hsn.ne_zero))
  obtain ⟨s₃, hs₃, he₃, -, hself₃, hprev₃, hnext₃⟩ :=
    setPrev_unless_null (s := s₂) (q := nodes.headD 0) (p := sn) fun h0 => (hold (hq h0)).1
  refine ⟨s₁, s₂, s₃, hs₁, hs₂, ?_, ⟨rfl, ?_, List.nodup_cons.mpr ⟨hno, hl.nodup⟩, ?_⟩,
    he₃.live.trans (he₂.live.trans he₁.live), he₃.shared.trans (he₂.shared.trans he₁.shared),
    he₃.first.trans (he₂.first.trans he₁.first), he₃.align.trans (he₂.align.trans he₁.align), ?_⟩
  · simp only [linkNext, hnext₂, Option.bind_eq_bind, Option.bind_some]
    exact hs₃
  · refine hl.linked.push hl.nodup ?_ ?_ ?_ ?_ ?_
    · exact (hprev₃ _ hsn₂ hnq).trans (hprev₂.trans hprev₁)
    · exact (hnext₃ _ hsn₂).trans hnext₂
    · intro x hx
      exact (hnext₃ x (hold hx).1).trans (hold hx).2.2
    · intro x hx
      have hx' := List.mem_of_head? hx
      have h0 := (hl.isNode x hx').ne_zero
      obtain rfl := (hhead h0).mp hx
      exact hself₃ h0
    · intro x hx hne
      have hne := fun heq => hne ((hhead (hl.isNode x hx).ne_zero).mpr heq)
      exact (hprev₃ x (hold hx).1 (Ne.symm hne)).trans (hold hx).2.1
  · exact List.forall_mem_cons.mpr ⟨he₃.isNode.mpr hsn₂, fun x hx => he₃.isNode.mpr (hold hx).1⟩
  · intro a n ha
    obtain ⟨hasn, ha⟩ := List.forall_mem_cons.mp ha
    exact (he₃.bytes a n fun h0 => ha _ (hq h0)).trans
      ((he₂.bytes a n fun _ => hasn).trans (he₁.bytes a n fun _ => hasn))

/-- `tm_alloc` puts a new node before the others and clears the segment. -/
theorem Listed.tmAlloc {nodes : List Ptr} {size : UInt64} {g : Grant} (hl : Listed s nodes)
    (hg : Granted s size g) :
    ∃ s', tmAlloc s size (some g) = some (s', .success (g.ptr + sizeofNode)) ∧
      Listed s' (g.ptr :: nodes) ∧
      s'.heap.live = ⟨g.ptr.toNat, sizeofNode.toNat + size.toNat⟩ :: s.heap.live ∧
      s'.shared = s.shared ∧ s'.region.first = s.region.first ∧
      s'.region.align = s.region.align ∧
      tmRead s' (g.ptr + sizeofNode) size = some (List.replicate size.toNat 0) ∧
      ∀ a n, s.heap.Valid a n → (∀ x ∈ nodes, a + n ≤ x.toNat ∨ x.toNat + 16 ≤ a) →
        readBytes s'.heap.bytes a n = readBytes s.heap.bytes a n := by
  obtain ⟨hsum, halign, hf⟩ := hg
  obtain ⟨heap, hheap⟩ := hf.alloc g.junk
  obtain ⟨-, hlive, -, -⟩ := ByteHeap.alloc_eq_some hheap
  obtain ⟨hread₀, hkeep₀⟩ := alloc_keeps hheap
  have hsize : (sizeofNode + size).toNat = sizeofNode.toNat + size.toNat := by
    rw [UInt64.toNat_add, Nat.mod_eq_of_lt hsum]
  have hmemalign : posixMemalign s.heap (if s.region.align < sizeofPtr then sizeofPtr
      else s.region.align) (sizeofNode + size) (some g) = some (heap, some g.ptr) := by
    rw [posixMemalign, if_pos halign, malloc, hsize, hheap, Option.map_some]
  have hsegment : (g.ptr + sizeofNode).toNat = g.ptr.toNat + 16 := by
    have hlt : g.ptr.toNat + (16 + size.toNat) < 2 ^ 64 := hf.1.2
    rw [UInt64.toNat_add, sizeofNode_toNat, Nat.mod_eq_of_lt]
    omega
  -- what is in another block is not in the new one
  have hapart {a n : ℕ} (hv : s.heap.Valid a n) :
      g.ptr.toNat + 16 + size.toNat ≤ a ∨ a + n ≤ g.ptr.toNat := by
    obtain ⟨b, hb, hcov⟩ := hv
    have hor := (hf.2 b hb).covers (ByteBlock.covers_self _) hcov
    rwa [sizeofNode_toNat, ← Nat.add_assoc] at hor
  have hno : g.ptr ∉ nodes := by
    intro hmem
    obtain ⟨b, hb, hbase, -⟩ := hl.isNode _ hmem
    exact (hf.2 b hb).1 hbase.symm
  have hsn : State.IsNode { s with heap := heap } g.ptr :=
    ⟨_, hlive ▸ List.mem_cons_self, rfl, Nat.le_add_right _ _⟩
  have hl₀ : Listed { s with heap := heap } nodes :=
    hl.congr rfl fun x hx => hkeep₀ x (hl.isNode x hx)
  obtain ⟨s₁, s₂, s₃, hs₁, hs₂, hs₃, hl₃, hlive₃, hshared, hfirst, halign', hread₃⟩ :=
    hl₀.link hsn hno
  obtain ⟨heap₄, hs₄⟩ : ∃ heap₄, s₃.heap.store (g.ptr + sizeofNode).toNat
      (List.replicate size.toNat 0) = some heap₄ := by
    refine ⟨_, ByteHeap.Valid.store ⟨_, hlive₃ ▸ hlive ▸ List.mem_cons_self, ?_⟩⟩
    rw [hsegment, List.length_replicate, sizeofNode_toNat]
    exact ⟨Nat.le_add_right _ _, (Nat.add_assoc _ _ _).le⟩
  obtain ⟨-, hlive₄, -, -⟩ := ByteHeap.store_eq_some hs₄
  obtain ⟨hread₄, hkeep₄⟩ := store_keeps hs₄
  rw [hsegment, List.length_replicate] at hread₄ hkeep₄
  refine ⟨{ s₃.setAllocs g.ptr with heap := heap₄ }, ?_, hl₃.congr rfl ?_,
    hlive₄.trans (hlive₃.trans hlive), hshared, hfirst, halign', ?_, ?_⟩
  · simp only [Reference.tmAlloc, hmemalign, hs₁, hs₂, hs₃, State.copy, hs₄, Option.bind_eq_bind,
      Option.bind_some, Option.map_some, Option.pure_def, State.setAllocs]
  · intro x hx
    -- the segment is behind its own header, and apart from the others
    have hor : g.ptr.toNat + 16 + size.toNat ≤ x.toNat ∨ x.toNat + 16 ≤ g.ptr.toNat + 16 := by
      obtain rfl | hmem := List.mem_cons.mp hx
      · exact .inr le_rfl
      · apply (hapart (hl.isNode x hmem).valid).imp_right
        intro hle
        exact hle.trans (Nat.le_add_right _ _)
    have hnode : State.IsNode { s₃.setAllocs g.ptr with heap := heap₄ } x := by
      rw [State.IsNode, hlive₄]
      exact hl₃.isNode x hx
    exact ⟨hnode, hkeep₄ x hor⟩
  · have hload := ByteHeap.load_store hs₄
    rwa [List.length_replicate] at hload
  · intro a n hv ha
    have hor := hapart hv
    refine (hread₄ a n (by omega)).trans ((hread₃ a n ?_).trans (hread₀ a n hv))
    exact List.forall_mem_cons.mpr ⟨by omega, ha⟩

end

/-! ## Over whole runs

The list is what the history of the calls says: the segments allocated and not freed, the last
one first. One lemma for each call shows that this stays true. -/

/-- A region that was created has an empty list, and two blocks of the heap. -/
theorem tmCreate_eq_shared {sizeofRegion : ℕ} {heap : ByteHeap} {size align : UInt64}
    {region start : Option Grant} {lockInit : Bool} {s₀ : State}
    (hc : tmCreate sizeofRegion heap size align region start lockInit = some (.shared s₀)) :
    s₀.region.allocs = 0 ∧
      s₀.heap.live = ⟨s₀.region.start.toNat, s₀.region.size.toNat⟩ ::
        ⟨s₀.shared.toNat, sizeofRegion⟩ :: heap.live := by
  rw [tmCreate] at hc
  obtain ⟨⟨heap₁, o₁⟩, hmalloc, hc⟩ := Option.bind_eq_some_iff.mp hc
  cases region with
  | none =>
    obtain ⟨rfl, rfl⟩ := Prod.mk.inj (Option.some.inj hmalloc)
    cases hc
  | some g₁ =>
    obtain ⟨halloc₁, rfl⟩ := malloc_eq_some hmalloc
    obtain ⟨⟨heap₂, o₂⟩, hmemalign, hc⟩ := Option.bind_eq_some_iff.mp hc
    cases start with
    | none =>
      obtain ⟨rfl, rfl⟩ := Prod.mk.inj (Option.some.inj hmemalign)
      obtain ⟨heap₃, -, hc⟩ := Option.bind_eq_some_iff.mp hc
      cases hc
    | some g₂ =>
      obtain ⟨-, -, halloc₂, rfl⟩ := posixMemalign_eq_some hmemalign
      dsimp only at hc
      split at hc
      · obtain ⟨heap₃, -, hc⟩ := Option.bind_eq_some_iff.mp hc
        obtain ⟨heap₄, -, hc⟩ := Option.bind_eq_some_iff.mp hc
        cases hc
      · obtain ⟨heap₃, hstore, hc⟩ := Option.bind_eq_some_iff.mp hc
        cases hc
        obtain ⟨-, hlive₁, -, -⟩ := ByteHeap.alloc_eq_some halloc₁
        obtain ⟨-, hlive₂, -, -⟩ := ByteHeap.alloc_eq_some halloc₂
        obtain ⟨-, hlive₃, -, -⟩ := ByteHeap.store_eq_some hstore
        exact ⟨rfl, hlive₃.trans (hlive₂.trans (congrArg _ hlive₁))⟩

namespace Segment

theorem header_add (g : Segment) : g.header + sizeofNode = g.address :=
  UInt64.sub_add_cancel g.address sizeofNode

theorem covers_header (g : Segment) : g.block.Covers g.header.toNat 16 :=
  ⟨le_rfl, Nat.add_le_add_left (Nat.le_add_right 16 _) _⟩

/-- A segment is known by its header. -/
theorem header_eq_iff {g g' : Segment} : g.header = g'.header ↔ g.address = g'.address := by
  constructor
  · intro heq
    rw [← g.header_add, heq, header_add]
  · intro heq
    rw [header, heq, header]

end Segment

section

variable {s₀ s s' : State} {h : List Event} {e : Event} {g : Segment} {x p : Ptr}

/-- What every run keeps: the list, the blocks and the bytes of the segments against the
history. -/
structure ListInv (s₀ : State) (h : List Event) (s : State) : Prop where
  /-- the list -/
  listed : Listed s ((segments h).map Segment.header)
  /-- the blocks -/
  live : s.heap.live = (segments h).map Segment.block ++ s₀.heap.live
  /-- the region is where it was -/
  shared : s.shared = s₀.shared
  /-- the region has the same first segment -/
  first : s.region.first = s₀.region.first

theorem ListInv.block_mem (hi : ListInv s₀ h s) (hg : g ∈ segments h) : g.block ∈ s.heap.live := by
  rw [hi.live]
  exact List.mem_append_left _ (List.mem_map_of_mem hg)

/-- A live segment is known by its address. -/
theorem ListInv.eq_of_address {g' : Segment} (hi : ListInv s₀ h s) (hg : g ∈ segments h)
    (hg' : g' ∈ segments h) (heq : g.address = g'.address) : g = g' := by
  have hblock := ByteHeap.eq_of_base_eq (hi.block_mem hg) (hi.block_mem hg')
    (congrArg UInt64.toNat (Segment.header_eq_iff.mpr heq))
  have hsize : sizeofNode.toNat + g.size.toNat = sizeofNode.toNat + g'.size.toNat :=
    congrArg ByteBlock.size hblock
  obtain ⟨address, size⟩ := g
  obtain ⟨address', size'⟩ := g'
  obtain rfl : address = address' := heq
  obtain rfl : size = size' := UInt64.toNat_inj.mp (Nat.add_left_cancel hsize)
  rfl

/-- A segment begins behind its header. -/
theorem ListInv.address_toNat (hi : ListInv s₀ h s) (hg : g ∈ segments h) :
    g.address.toNat = g.header.toNat + 16 := by
  have hlt : g.header.toNat + (16 + g.size.toNat) < 2 ^ 64 :=
    (s.heap.inside _ (hi.block_mem hg)).2
  rw [← g.header_add, UInt64.toNat_add, sizeofNode_toNat, Nat.mod_eq_of_lt]
  omega

/-- No live segment has a byte in a header. -/
theorem ListInv.apart (hi : ListInv s₀ h s)
    (hfirst : ⟨s₀.region.start.toNat, s₀.region.size.toNat⟩ ∈ s₀.heap.live)
    (hg : g ∈ s₀.region.first :: segments h) (hx : x ∈ (segments h).map Segment.header) :
    g.address.toNat + g.size.toNat ≤ x.toNat ∨ x.toNat + 16 ≤ g.address.toNat := by
  obtain ⟨g', hg', rfl⟩ := List.mem_map.mp hx
  obtain rfl | hg := List.mem_cons.mp hg
  · have hpairwise := s.heap.apart
    rw [hi.live] at hpairwise
    have hapart := (List.pairwise_append.mp hpairwise).2.2 _ (List.mem_map_of_mem hg') _ hfirst
    exact (hapart.covers g'.covers_header (ByteBlock.covers_self _)).symm
  · rw [hi.address_toNat hg]
    by_cases hgg : g.block = g'.block
    · -- its own header is before it
      have hbase : g.header.toNat = g'.header.toNat := congrArg ByteBlock.base hgg
      exact .inr (by rw [hbase])
    · have hapart := ByteHeap.apart_of_mem (hi.block_mem hg) (hi.block_mem hg') hgg
      have hor : g.header.toNat + (16 + g.size.toNat) ≤ g'.header.toNat ∨
          g'.header.toNat + 16 ≤ g.header.toNat :=
        hapart.covers (ByteBlock.covers_self _) g'.covers_header
      omega

/-- Every live segment can be read and written. -/
theorem ListInv.valid (hi : ListInv s₀ h s)
    (hfirst : ⟨s₀.region.start.toNat, s₀.region.size.toNat⟩ ∈ s₀.heap.live)
    (hg : g ∈ s₀.region.first :: segments h) : s.heap.Valid g.address.toNat g.size.toNat := by
  obtain rfl | hg := List.mem_cons.mp hg
  · rw [ByteHeap.Valid, hi.live]
    exact ⟨_, List.mem_append_right _ hfirst, ByteBlock.covers_self _⟩
  · refine ⟨_, hi.block_mem hg, ?_⟩
    rw [hi.address_toNat hg]
    exact ⟨Nat.le_add_right _ _, (Nat.add_assoc _ _ _).le⟩

/-- The blocks that are left when a segment is freed. -/
theorem erase_block (l : List Segment) (hg : g ∈ l) (rest : List ByteBlock) :
    (l.map Segment.block ++ rest).eraseP (fun b => b.base == g.header.toNat) =
      (l.eraseP fun g' => g'.address == g.address).map Segment.block ++ rest := by
  have hfun : ((fun b : ByteBlock => b.base == g.header.toNat) ∘ Segment.block) =
      fun g' => g'.address == g.address := by
    funext g'
    rw [Bool.eq_iff_iff, beq_iff_eq, ← Segment.header_eq_iff]
    exact beq_iff_eq.trans UInt64.toNat_inj
  rw [List.eraseP_append_left (p := fun b => b.base == g.header.toNat) (a := g.block)
    (beq_self_eq_true _) _ (List.mem_map_of_mem hg), List.eraseP_map, hfun]

/-- `tm_free` of a live segment has a result, keeps the invariant and changes nothing but
headers. -/
theorem ListInv.tmFree (hi : ListInv s₀ h s) (hg : g ∈ segments h) :
    ∃ s', tmFree s g.address = some s' ∧ ListInv s₀ (.free g.address :: h) s' ∧
      ∀ a n, (∀ x ∈ (segments h).map Segment.header, a + n ≤ x.toNat ∨ x.toNat + 16 ≤ a) →
        readBytes s'.heap.bytes a n = readBytes s.heap.bytes a n := by
  obtain ⟨g', l₁, l₂, -, hg', heq, herase⟩ :=
    List.exists_of_eraseP (p := fun g' => g'.address == g.address) hg (beq_self_eq_true _)
  have hheader : g'.header = g.header := Segment.header_eq_iff.mpr (beq_iff_eq.mp hg')
  have hl := hi.listed
  rw [heq, List.map_append, List.map_cons, hheader] at hl
  obtain ⟨s', hs', hl', hlive, hshared, hfirst, -, hbytes⟩ := hl.tmFree
  rw [g.header_add] at hs'
  refine ⟨s', hs', ⟨?_, ?_, hshared.trans hi.shared, hfirst.trans hi.first⟩, ?_⟩
  · rw [segments, herase, List.map_append]
    exact hl'
  · rw [hlive, hi.live, erase_block _ hg, segments]
  · intro a n ha
    refine hbytes a n fun x hx => ha x ?_
    rw [heq, List.map_append, List.map_cons, List.mem_append, List.mem_cons]
    exact (List.mem_append.mp hx).imp_right .inr

/-- The segment that was freed is gone from the list and from the heap. -/
theorem ListInv.gone (hi : ListInv s₀ h s) (hg : g ∈ segments h)
    (hi' : ListInv s₀ (.free g.address :: h) s') :
    g.header ∉ (segments (.free g.address :: h)).map Segment.header ∧
      g.block ∉ s'.heap.live := by
  obtain ⟨g', l₁, l₂, -, hg', heq, herase⟩ :=
    List.exists_of_eraseP (p := fun g' => g'.address == g.address) hg (beq_self_eq_true _)
  obtain rfl : g' = g := hi.eq_of_address (heq ▸ List.mem_append_right _ List.mem_cons_self) hg
    (beq_iff_eq.mp hg')
  have hnodes := hi.listed.nodup
  have hblocks := s.heap.nodup_live
  rw [heq, List.map_append, List.map_cons, List.nodup_middle, List.nodup_cons] at hnodes
  rw [hi.live, heq, List.map_append, List.map_cons, List.append_assoc, List.cons_append,
    List.nodup_middle, List.nodup_cons] at hblocks
  rw [hi'.live, segments, herase, List.map_append, List.map_append, List.append_assoc]
  exact ⟨hnodes.1, hblocks.1⟩

/-- One more call keeps the invariant. -/
theorem ListInv.step {c : Call} (hi : ListInv s₀ h s)
    (hfirst : ⟨s₀.region.start.toNat, s₀.region.size.toNat⟩ ∈ s₀.heap.live)
    (hs : step s c = some (s', e)) (hq : Clients s₀.region h s e) : ListInv s₀ (e :: h) s' := by
  cases c with
  | alloc size grant =>
    obtain ⟨⟨s₁, r⟩, halloc, heq⟩ := Option.map_eq_some_iff.mp hs
    obtain ⟨rfl, rfl⟩ := Prod.mk.inj heq
    rcases tmAlloc_eq_some halloc with ⟨-, rfl, rfl⟩ | ⟨g, rfl, hg⟩
    · exact ⟨hi.listed, hi.live, hi.shared, hi.first⟩
    · obtain ⟨s', hs', hl, hlive, hshared, hfirst, -, -, -⟩ := hi.listed.tmAlloc hg
      obtain ⟨rfl, rfl⟩ := Prod.mk.inj (Option.some.inj (halloc.symm.trans hs'))
      have hheader : (g.ptr + sizeofNode) - sizeofNode = g.ptr := UInt64.add_sub_cancel _ _
      refine ⟨?_, ?_, hshared.trans hi.shared, hfirst.trans hi.first⟩
      · rw [segments, List.map_cons, Segment.header, hheader]
        exact hl
      · rw [segments, List.map_cons, Segment.block, Segment.header, hheader, hlive, hi.live]
        rfl
  | free segment =>
    obtain ⟨s₁, hfree, heq⟩ := Option.map_eq_some_iff.mp hs
    obtain ⟨rfl, rfl⟩ := Prod.mk.inj heq
    obtain ⟨g, hg, rfl⟩ := hq
    obtain ⟨s', hs', hi', -⟩ := hi.tmFree hg
    obtain rfl := Option.some.inj (hfree.symm.trans hs')
    exact hi'
  | write source target =>
    obtain ⟨s₁, hwrite, heq⟩ := Option.map_eq_some_iff.mp hs
    obtain ⟨rfl, rfl⟩ := Prod.mk.inj heq
    obtain ⟨g, hg, hle, hle'⟩ := hq
    rw [tmWrite, State.copy] at hwrite
    obtain ⟨heap, hstore, rfl⟩ := Option.map_eq_some_iff.mp hwrite
    obtain ⟨-, hlive, -, -⟩ := ByteHeap.store_eq_some hstore
    refine ⟨hi.listed.congr rfl fun x hx => ⟨?_, (store_keeps hstore).2 x ?_⟩, hlive.trans hi.live,
      hi.shared, hi.first⟩
    · rw [State.IsNode, hlive]
      exact hi.listed.isNode x hx
    · have hor := hi.apart hfirst hg hx
      omega

/-- Every run of a created region keeps the invariant. -/
theorem ListInv.run {sizeofRegion : ℕ} {heap : ByteHeap} {size align : UInt64}
    {region start : Option Grant} {lockInit : Bool}
    (hc : tmCreate sizeofRegion heap size align region start lockInit = some (.shared s₀))
    (hr : Run Reference.step (Clients s₀.region) s₀ h s) : ListInv s₀ h s := by
  obtain ⟨hallocs, hlive⟩ := tmCreate_eq_shared hc
  induction hr with
  | start => exact ⟨⟨hallocs, trivial, List.nodup_nil, nofun⟩, rfl, rfl, rfl⟩
  | next hr hs hq ih => exact ih.step (hlive ▸ List.mem_cons_self) hs hq

/-- A segment that the header edits do not touch is read as before. -/
theorem ListInv.tmRead_eq (hi : ListInv s₀ h s)
    (hfirst : ⟨s₀.region.start.toNat, s₀.region.size.toNat⟩ ∈ s₀.heap.live)
    (hg : g ∈ s₀.region.first :: segments h)
    (hbytes : readBytes s'.heap.bytes g.address.toNat g.size.toNat =
      readBytes s.heap.bytes g.address.toNat g.size.toNat)
    (hvalid : s'.heap.Valid g.address.toNat g.size.toNat) :
    ∃ bs, tmRead s g.address g.size = some bs ∧ tmRead s' g.address g.size = some bs := by
  refine ⟨readBytes s.heap.bytes g.address.toNat g.size.toNat, ?_, ?_⟩
  · rw [tmRead, ByteHeap.load, if_pos (hi.valid hfirst hg)]
  · rw [tmRead, ByteHeap.load, if_pos hvalid, hbytes]

/-! ## `tm_destroy`

`tm_destroy` walks over the list and frees what it comes to. By the invariant this is every
block the region has. -/

/-- The loop frees the nodes one after the other. -/
theorem destroyAllocs_spec {segs : List Segment} {rest : List ByteBlock}
    (hhead : s.region.allocs = (segs.map Segment.header).headD 0)
    (hlinked : DoublyLinked s.next s.prev p (segs.map Segment.header) 0)
    (hlive : s.heap.live = segs.map Segment.block ++ rest) :
    ∃ s', (∀ fuel, segs.length < fuel → destroyAllocs fuel s = some s') ∧
      s'.heap.live = rest ∧ s'.heap.freed = (segs.map Segment.block).reverse ++ s.heap.freed ∧
      s'.shared = s.shared ∧ s'.region.first = s.region.first := by
  induction segs generalizing s p with
  | nil =>
    refine ⟨s, ?_, hlive, rfl, rfl, rfl⟩
    intro fuel hlt
    obtain ⟨fuel, rfl⟩ := Nat.exists_eq_succ_of_ne_zero hlt.ne'
    rw [destroyAllocs]
    exact if_pos hhead
  | cons g segs ih =>
    obtain ⟨-, hnext, hlinked⟩ := hlinked
    have hmem : g.block ∈ s.heap.live := by
      rw [hlive]
      exact List.mem_cons_self
    obtain ⟨s₁, hs₁, hlive₁, hfreed₁, hbytes₁, hshared₁, hregion₁⟩ :=
      State.free_of_mem hmem (rfl : g.block.base = g.header.toNat)
    have hhead' : s.region.allocs = g.header := hhead
    have hnode : s.IsNode g.header := ⟨_, hmem, rfl, Nat.le_add_right _ _⟩
    have hlive₁' : s₁.heap.live = segs.map Segment.block ++ rest := by
      rw [hlive₁, hlive, List.map_cons, List.cons_append]
      exact List.eraseP_cons_of_pos (beq_self_eq_true _)
    -- the other headers outlive the first
    have hkeep {x : Ptr} (hx : x ∈ segs.map Segment.header) :
        s₁.IsNode x ∧ s₁.prev x = s.prev x ∧ s₁.next x = s.next x := by
      obtain ⟨g', hg', rfl⟩ := List.mem_map.mp hx
      refine State.IsNode.erase (y := g.header) ⟨g'.block, ?_, rfl, Nat.le_add_right _ _⟩ ?_
        hlive₁ hbytes₁
      · rw [hlive]
        exact List.mem_append_left _ (List.mem_map_of_mem (List.mem_cons_of_mem _ hg'))
      · intro heq
        have hpairwise := s.heap.apart
        rw [hlive, List.map_cons, List.cons_append, List.pairwise_cons] at hpairwise
        apply (hpairwise.1 g'.block (List.mem_append_left _ (List.mem_map_of_mem hg'))).1
        exact congrArg UInt64.toNat heq.symm
    obtain ⟨s', hs', hlive', hfreed', hshared', hfirst'⟩ :=
      ih (s := s₁.setAllocs ((segs.map Segment.header).headD 0)) rfl
        (hlinked.congr (fun x hx => (hkeep hx).2.2) fun x hx => (hkeep hx).2.1) hlive₁'
    refine ⟨s', ?_, hlive', ?_, hshared'.trans hshared₁, hfirst'.trans ?_⟩
    · intro fuel hlt
      obtain ⟨fuel, rfl⟩ := Nat.exists_eq_succ_of_ne_zero (Nat.ne_zero_of_lt hlt)
      rw [destroyAllocs, hhead', if_neg hnode.ne_zero]
      simp only [hnext, hs₁, Option.bind_eq_bind, Option.bind_some]
      exact hs' fuel (Nat.lt_of_succ_lt_succ hlt)
    · rw [hfreed', List.map_cons, List.reverse_cons, List.append_assoc]
      exact congrArg _ hfreed₁
    · rw [← hregion₁]
      rfl

/-- `tm_destroy` frees every block of the region. -/
theorem ListInv.tmDestroy (hi : ListInv s₀ h s) {sizeofRegion : ℕ} {rest : List ByteBlock}
    (hlive : s₀.heap.live = ⟨s₀.region.start.toNat, s₀.region.size.toNat⟩ ::
      ⟨s₀.shared.toNat, sizeofRegion⟩ :: rest) :
    ∃ heap released, (∀ fuel, (segments h).length < fuel → tmDestroy fuel s = some heap) ∧
      s.heap.live = released ++ rest ∧ released.Nodup ∧
      heap.freed = released.reverse ++ s.heap.freed ∧ heap.live = rest := by
  obtain ⟨s₁, hs₁, hlive₁, hfreed₁, hshared₁, hfirst₁⟩ :=
    destroyAllocs_spec hi.listed.head hi.listed.linked hi.live
  have hstart : s₁.region.start = s₀.region.start :=
    congrArg Segment.address (hfirst₁.trans hi.first)
  have hshared : s₁.shared = s₀.shared := hshared₁.trans hi.shared
  rw [hlive] at hlive₁
  obtain ⟨s₂, hs₂, hlive₂, hfreed₂, hshared₂, -⟩ := State.free_head hlive₁ rfl
  obtain ⟨s₃, hs₃, hlive₃, hfreed₃, -⟩ := State.free_head hlive₂ rfl
  refine ⟨s₃.heap, (segments h).map Segment.block ++ [⟨s₀.region.start.toNat, s₀.region.size.toNat⟩,
    ⟨s₀.shared.toNat, sizeofRegion⟩], ?_, ?_, ?_, ?_, hlive₃⟩
  · intro fuel hlt
    simp only [Reference.tmDestroy, hs₁ fuel hlt, hstart, hs₂, hshared₂, hshared, hs₃,
      Option.bind_eq_bind, Option.bind_some, Option.pure_def]
  · rw [hi.live, hlive, List.append_assoc]
    rfl
  · have hnodup := s.heap.nodup_live
    rw [hi.live, hlive] at hnodup
    refine hnodup.sublist (List.Sublist.append_left ?_ _)
    exact ((List.nil_sublist _).cons_cons _).cons_cons _
  · rw [hfreed₃, hfreed₂, hfreed₁, List.reverse_append]
    rfl

/-- `allocs` heads a doubly linked list of these nodes. -/
structure SegmentList (s : State) (nodes : List Ptr) : Prop where
  /-- `allocs` is the first, and each is linked with the next, and the last with none -/
  listed : Listed s nodes
  /-- none is `NULL` -/
  nonnull : 0 ∉ nodes
  /-- the first has none before it -/
  prev_head : ∀ x, nodes.head? = some x → s.prev x = some 0
  /-- `prev` undoes `next` -/
  prev_next : ∀ x ∈ nodes, ∃ y, s.next x = some y ∧ (y = 0 ∨ y ∈ nodes ∧ s.prev y = some x)
  /-- `next` undoes `prev` -/
  next_prev : ∀ x ∈ nodes, ∃ y, s.prev x = some y ∧ (y = 0 ∨ y ∈ nodes ∧ s.next y = some x)

theorem Listed.segmentList {nodes : List Ptr} (hl : Listed s nodes) : SegmentList s nodes := by
  refine ⟨hl, fun hmem => (hl.isNode 0 hmem).ne_zero rfl, fun x hx => ?_,
    fun x hx => hl.linked.prev_next hx, fun x hx => hl.linked.next_prev hx⟩
  obtain ⟨nodes, rfl⟩ := List.head?_eq_some_iff.mp hx
  exact hl.linked.1

/-- **The list of segments.** In every run the headers of the live allocated segments are the
nodes of a doubly linked list, each once; `tm_alloc` takes any fresh block, `tm_free` any live
allocated segment, and no other segment changes by it; and `tm_destroy` ends, and has then
released each block of the region once. -/
theorem segment_list {sizeofRegion : ℕ} {heap : ByteHeap} {size align : UInt64}
    {region start : Option Grant} {lockInit : Bool}
    (hc : tmCreate sizeofRegion heap size align region start lockInit = some (.shared s₀))
    (hr : Run Reference.step (Clients s₀.region) s₀ h s) :
    SegmentList s ((segments h).map Segment.header) ∧
      (∀ size g, Granted s size g →
        ∃ s', tmAlloc s size (some g) = some (s', .success (g.ptr + sizeofNode))) ∧
      (∀ g ∈ segments h, ∃ s', tmFree s g.address = some s' ∧
        ∀ g' ∈ s₀.region.first :: segments h, g' ≠ g →
          ∃ bs, tmRead s g'.address g'.size = some bs ∧
            tmRead s' g'.address g'.size = some bs) ∧
      ∃ heap' released, (∀ fuel, (segments h).length < fuel → tmDestroy fuel s = some heap') ∧
        s.heap.live = released ++ heap.live ∧ released.Nodup ∧
        heap'.freed = released.reverse ++ s.heap.freed ∧ heap'.live = heap.live := by
  have hi := ListInv.run hc hr
  obtain ⟨-, hlive⟩ := tmCreate_eq_shared hc
  have hfirst : ⟨s₀.region.start.toNat, s₀.region.size.toNat⟩ ∈ s₀.heap.live := by
    rw [hlive]
    exact List.mem_cons_self
  refine ⟨hi.listed.segmentList, ?_, ?_, hi.tmDestroy hlive⟩
  · intro size g hg
    obtain ⟨s', hs', -⟩ := hi.listed.tmAlloc hg
    exact ⟨s', hs'⟩
  · intro g hg
    obtain ⟨s', hs', hi', hbytes⟩ := hi.tmFree hg
    refine ⟨s', hs', ?_⟩
    intro g' hg' hne
    have hleft : g' ∈ s₀.region.first :: segments (.free g.address :: h) := by
      obtain rfl | hg' := List.mem_cons.mp hg'
      · exact List.mem_cons_self
      · refine List.mem_cons_of_mem _ ((List.mem_eraseP_of_neg fun heq => hne ?_).mpr hg')
        exact hi.eq_of_address hg' hg (beq_iff_eq.mp heq)
    exact hi.tmRead_eq hfirst hg' (hbytes _ _ fun x hx => hi.apart hfirst hg' hx)
      (hi'.valid hfirst hleft)

/-- A memory without any block. -/
def noBlocks : ByteHeap := ⟨[], fun _ => 0, [], .nil, nofun⟩

/-- A granted block whose bytes are not zero. -/
def grantAt (ptr : Ptr) : Grant := ⟨ptr, fun _ => 0xaa⟩

/-- Three segments are allocated, and the second is written and freed. -/
def middleCalls : List Call :=
  [.alloc 32 (some (grantAt 16384)), .alloc 8 (some (grantAt 24576)),
    .alloc 16 (some (grantAt 32768)), .write [1, 2, 3, 4, 5, 6, 7, 8] 24592, .free 24592]

/-- What was seen of the run above. -/
def middleHistory : List Event :=
  [.free 24592, .write 24592 8, .alloc 16 (.success 32784), .alloc 8 (.success 24592),
    .alloc 32 (.success 16400)]

/-- Of three segments the one in the middle is freed, and the first and the third are left. -/
theorem segment_list_middle :
    ∃ s₀ s, tmCreate 88 noBlocks 64 8 (some (grantAt 4096)) (some (grantAt 8192)) true =
        some (.shared s₀) ∧
      Run Reference.step (Clients s₀.region) s₀ middleHistory s ∧
      SegmentList s [32768, 16384] ∧
      ∃ heap, tmDestroy 3 s = some heap ∧ heap.live = [] := by
  have hexec : ((tmCreate 88 noBlocks 64 8 (some (grantAt 4096)) (some (grantAt 8192)) true).bind
      fun c => match c with
        | .shared s₀ => (execUnder Reference.step (Clients s₀.region) middleCalls (s₀, [])).map
            fun p => (p.2, ())
        | .invalid _ => none) = some (middleHistory, ()) := by
    decide +kernel
  obtain ⟨c, hc, hexec⟩ := Option.bind_eq_some_iff.mp hexec
  cases c with
  | invalid heap => cases hexec
  | shared s₀ =>
    obtain ⟨s, hr, -⟩ := Run.of_execUnder (f := fun _ => ()) middleCalls .start hexec
    obtain ⟨hlist, -, -, heap, released, hdestroy, -, -, -, hlive⟩ := segment_list hc hr
    have hnodes : (segments middleHistory).map Segment.header = [32768, 16384] := by
      decide +kernel
    rw [hnodes] at hlist
    exact ⟨s₀, s, hc, hr, hlist, heap, hdestroy 3 (by decide), hlive⟩

end

end Reference

end DualStm
