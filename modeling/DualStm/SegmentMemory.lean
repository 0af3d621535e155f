import DualStm.SharedLock

/-!
# What the clients of the reference library see

To its clients the memory of a region is a set of segments with bytes in them: `tm_alloc` adds
a segment of zeros, `tm_write` puts bytes into a segment, `tm_read` returns what is there, and
`tm_free` removes a segment. Headers, links and the lock are not part of that memory. As long
as the clients access live segments only, the library does what the memory does, with the
transactions one after the other.
-/

namespace DualStm

namespace Reference

/-! ## The memory of the clients

What a client thinks of: segments that come and go, and bytes in them. There are no headers, no
list and no heap, and a segment is known by its address. -/

/-- Segments, and what their bytes hold. -/
structure Memory where
  /-- the live allocated segments, the last one first -/
  live : List Segment
  /-- what is at an address -/
  byte : ℕ → UInt8

namespace Segment

/-- The `n` bytes from `a` on are within the segment. -/
def Holds (g : Segment) (a n : ℕ) : Prop :=
  g.address.toNat ≤ a ∧ a + n ≤ g.address.toNat + g.size.toNat

/-- The segments have no byte in common. -/
def Apart (g g' : Segment) : Prop :=
  g.address.toNat + g.size.toNat ≤ g'.address.toNat ∨
    g'.address.toNat + g'.size.toNat ≤ g.address.toNat

instance (g : Segment) (a n : ℕ) : Decidable (g.Holds a n) := inferInstanceAs (Decidable (_ ∧ _))

end Segment

/-- What a call may do to the memory, and answer. -/
inductive Memory.Does (first : Segment) (m : Memory) : Op → Result → Memory → Prop where
  | read {source : Ptr} {size : UInt64}
      (hin : ∃ g ∈ first :: m.live, g.Holds source.toNat size.toNat) :
    Memory.Does first m (.read source size)
      (.bytes (readBytes m.byte source.toNat size.toNat)) m
  | write {source : List UInt8} {target : Ptr}
      (hin : ∃ g ∈ first :: m.live, g.Holds target.toNat source.length) :
    Memory.Does first m (.call (.write source target)) (.event (.write target source.length))
      { m with byte := blit m.byte target.toNat source }
  | alloc {size : UInt64} {grant : Option Grant} {target : Ptr}
      (hfresh : ∀ g ∈ first :: m.live, Segment.Apart ⟨target, size⟩ g) :
    Memory.Does first m (.call (.alloc size grant)) (.event (.alloc size (.success target)))
      ⟨⟨target, size⟩ :: m.live, blit m.byte target.toNat (List.replicate size.toNat 0)⟩
  | nomem {size : UInt64} :
    Memory.Does first m (.call (.alloc size none)) (.event (.alloc size .nomem)) m
  | free {g : Segment} (hg : g ∈ m.live) :
    Memory.Does first m (.call (.free g.address)) (.event (.free g.address))
      { m with live := m.live.eraseP fun g' => g'.address == g.address }

/-! ## The clients

A client accesses only what is live. So the library has to be right only for such calls, and
nothing is said about the others. -/

variable {τ : Type}

/-- The calls that changed the memory. -/
def memoryEvents : List (GuardEvent τ Op Result) → List Event
  | [] => []
  | .did _ _ (.event e) :: h => e :: memoryEvents h
  | _ :: h => memoryEvents h

/-- What the call accesses is within a live segment. -/
def Op.Live (first : Segment) (live : List Segment) : Op → Prop
  | .read source size => ∃ g ∈ first :: live, g.Holds source.toNat size.toNat
  | .call (.write source target) => ∃ g ∈ first :: live, g.Holds target.toNat source.length
  | .call (.free segment) => ∃ g ∈ live, g.address = segment
  | .call (.alloc _ _) => True

/-- The clients read, write and free what is live, and only read in read-only transactions. -/
def AccessLive (first : Segment) : Discipline (Shared τ) (GuardEvent τ Op Result) := fun h s e =>
  ReadersRead h s e ∧
    match e with
    | .did _ op _ => op.Live first (segments (memoryEvents h))
    | _ => True

instance (first : Segment) (live : List Segment) (op : Op) : Decidable (op.Live first live) :=
  match op with
  | .read _ _ => inferInstanceAs (Decidable (∃ g ∈ first :: live, _))
  | .call (.write _ _) => inferInstanceAs (Decidable (∃ g ∈ first :: live, _))
  | .call (.free _) => inferInstanceAs (Decidable (∃ g ∈ live, _))
  | .call (.alloc _ _) => inferInstanceAs (Decidable True)

instance (first : Segment) (h : List (GuardEvent τ Op Result)) (s : Shared τ)
    (e : GuardEvent τ Op Result) : Decidable (AccessLive first h s e) :=
  match e with
  | .did _ _ _ => inferInstanceAs (Decidable (_ ∧ _))
  | .acquired _ _ => inferInstanceAs (Decidable (_ ∧ True))
  | .refused _ _ => inferInstanceAs (Decidable (_ ∧ True))
  | .released _ => inferInstanceAs (Decidable (_ ∧ True))

/-! ## The simulation

The library shows a memory if every byte of a live segment is the one that the memory has. A
header is in no live segment, so what the library does to its list does not show. -/

section

variable {s₀ s s' : State} {h : List Event} {m : Memory} {first : Segment}

/-- The bytes of the live segments are those of the memory. -/
structure Shows (s₀ : State) (h : List Event) (s : State) (m : Memory) : Prop where
  /-- the list of the segments -/
  inv : ListInv s₀ h s
  /-- the segments -/
  live : m.live = segments h
  /-- the bytes of the segments are those of the memory -/
  bytes : ∀ g ∈ s₀.region.first :: m.live, ∀ c, g.Holds c 1 → s.heap.bytes c = m.byte c

theorem Segment.Holds.one {g : Segment} {a n i : ℕ} (hg : g.Holds a n) (hi : i < n) :
    g.Holds (a + i) 1 := by
  obtain ⟨hle, hle'⟩ := hg
  exact ⟨by omega, by omega⟩

theorem Shows.readBytes_eq (hm : Shows s₀ h s m) {g : Segment} (hg : g ∈ s₀.region.first :: m.live)
    {a n : ℕ} (hin : g.Holds a n) : readBytes s.heap.bytes a n = readBytes m.byte a n := by
  refine List.map_congr_left fun i hi => hm.bytes g hg (a + i) ?_
  exact hin.one (List.mem_range.mp hi)

/-- What is within a live segment can be accessed. -/
theorem Shows.valid (hm : Shows s₀ h s m)
    (hfirst : ⟨s₀.region.start.toNat, s₀.region.size.toNat⟩ ∈ s₀.heap.live) {a n : ℕ}
    (hin : ∃ g ∈ s₀.region.first :: m.live, g.Holds a n) : s.heap.Valid a n := by
  obtain ⟨g, hg, hle, hle'⟩ := hin
  rw [hm.live] at hg
  obtain ⟨b, hb, hcov⟩ := hm.inv.valid hfirst hg
  exact ⟨b, hb, le_trans hcov.1 hle, le_trans hle' hcov.2⟩

theorem Shows.read (hm : Shows s₀ h s m)
    (hfirst : ⟨s₀.region.start.toNat, s₀.region.size.toNat⟩ ∈ s₀.heap.live) {source : Ptr}
    {size : UInt64} (hin : ∃ g ∈ s₀.region.first :: m.live, g.Holds source.toNat size.toNat) :
    tmRead s source size = some (readBytes m.byte source.toNat size.toNat) := by
  have hvalid := hm.valid hfirst hin
  obtain ⟨g, hg, hin⟩ := hin
  rw [tmRead, ByteHeap.load, if_pos hvalid, hm.readBytes_eq hg hin]

/-- `tm_write` changes the bytes of the memory. -/
theorem Shows.write (hm : Shows s₀ h s m) {source : List UInt8} {target : Ptr}
    (hs : tmWrite s source target = some s')
    (hi' : ListInv s₀ (.write target source.length :: h) s') :
    Shows s₀ (.write target source.length :: h) s'
      { m with byte := blit m.byte target.toNat source } := by
  refine ⟨hi', hm.live, ?_⟩
  intro g hg c hc
  obtain ⟨heap, hstore, rfl⟩ := Option.map_eq_some_iff.mp hs
  obtain ⟨-, -, -, hbytes⟩ := ByteHeap.store_eq_some hstore
  have hold := hm.bytes g hg c hc
  simp only [hbytes, blit, hold]

/-- A header is in no live segment. -/
theorem Shows.header_apart (hm : Shows s₀ h s m)
    (hfirst : ⟨s₀.region.start.toNat, s₀.region.size.toNat⟩ ∈ s₀.heap.live) {g : Segment}
    (hg : g ∈ s₀.region.first :: m.live) {c : ℕ} (hc : g.Holds c 1) :
    ∀ x ∈ (segments h).map Segment.header, c + 1 ≤ x.toNat ∨ x.toNat + 16 ≤ c := by
  intro x hx
  rw [hm.live] at hg
  obtain ⟨hle, hle'⟩ := hc
  rcases hm.inv.apart hfirst hg hx with hor | hor
  · exact .inl (by omega)
  · exact .inr (by omega)

/-- `tm_free` leaves the bytes of the other segments alone. -/
theorem Shows.free (hm : Shows s₀ h s m)
    (hfirst : ⟨s₀.region.start.toNat, s₀.region.size.toNat⟩ ∈ s₀.heap.live) {g : Segment}
    (hg : g ∈ m.live) (hs : tmFree s g.address = some s') :
    Shows s₀ (.free g.address :: h) s'
      { m with live := m.live.eraseP fun g' => g'.address == g.address } := by
  obtain ⟨s₁, hs₁, hi', hbytes⟩ := hm.inv.tmFree (hm.live ▸ hg)
  obtain rfl := Option.some.inj (hs.symm.trans hs₁)
  refine ⟨hi', ?_, ?_⟩
  · rw [segments, hm.live]
  · intro g' hg' c hc
    have hmem : g' ∈ s₀.region.first :: m.live := by
      obtain rfl | hg' := List.mem_cons.mp hg'
      · exact List.mem_cons_self
      · exact List.mem_cons_of_mem _ (List.mem_of_mem_eraseP hg')
    have hsame := hbytes c 1 (hm.header_apart hfirst hmem hc)
    have hone : s'.heap.bytes c = s.heap.bytes c := by
      simpa [readBytes] using hsame
    rw [hone]
    exact hm.bytes g' hmem c hc

theorem readBytes_eq_iff {f f' : ℕ → UInt8} {a n : ℕ} :
    readBytes f a n = readBytes f' a n ↔ ∀ i < n, f (a + i) = f' (a + i) := by
  rw [readBytes, readBytes, List.map_inj_left]
  simp only [List.mem_range]

/-- `tm_alloc` adds a segment of zeros that no other one touches. -/
theorem Shows.alloc (hm : Shows s₀ h s m)
    (hfirst : ⟨s₀.region.start.toNat, s₀.region.size.toNat⟩ ∈ s₀.heap.live) {size : UInt64}
    {g : Grant} (hg : Granted s size g)
    (hi' : ListInv s₀ (.alloc size (.success (g.ptr + sizeofNode)) :: h) s')
    (hs : tmAlloc s size (some g) = some (s', .success (g.ptr + sizeofNode))) :
    (∀ g' ∈ s₀.region.first :: m.live, Segment.Apart ⟨g.ptr + sizeofNode, size⟩ g') ∧
      Shows s₀ (.alloc size (.success (g.ptr + sizeofNode)) :: h) s'
        ⟨⟨g.ptr + sizeofNode, size⟩ :: m.live,
          blit m.byte (g.ptr + sizeofNode).toNat (List.replicate size.toNat 0)⟩ := by
  obtain ⟨s₁, hs₁, -, -, -, -, -, hzero, hkeep⟩ := hm.inv.listed.tmAlloc hg
  obtain rfl : s' = s₁ := (Prod.mk.inj (Option.some.inj (hs.symm.trans hs₁))).1
  have hnew : (g.ptr + sizeofNode).toNat = g.ptr.toNat + 16 := by
    have haddr := hi'.address_toNat (g := ⟨g.ptr + sizeofNode, size⟩) List.mem_cons_self
    rwa [Segment.header, UInt64.add_sub_cancel] at haddr
  have hapart : ∀ g' ∈ s₀.region.first :: m.live, Segment.Apart ⟨g.ptr + sizeofNode, size⟩ g' := by
    intro g' hg'
    obtain ⟨b, hb, hcov⟩ := hm.valid hfirst ⟨g', hg', le_rfl, le_rfl⟩
    have hcov' : ByteBlock.Covers ⟨g.ptr.toNat, sizeofNode.toNat + size.toNat⟩
        (g.ptr + sizeofNode).toNat size.toNat := by
      rw [hnew]
      exact ⟨Nat.le_add_right _ _, (Nat.add_assoc _ _ _).le⟩
    exact (hg.2.2.2 b hb).covers hcov' hcov
  refine ⟨hapart, hi', ?_, ?_⟩
  · rw [segments, hm.live]
  · intro g' hg' c hc
    have hlength : (List.replicate size.toNat (0 : UInt8)).length = size.toNat :=
      List.length_replicate
    by_cases hin : (g.ptr + sizeofNode).toNat ≤ c ∧ c < (g.ptr + sizeofNode).toNat + size.toNat
    · -- a byte of the new segment is zero on both sides
      obtain ⟨hle, hlt⟩ := hin
      obtain ⟨i, rfl⟩ := Nat.exists_eq_add_of_le hle
      have hi : i < size.toNat := by omega
      rw [tmRead, ByteHeap.load] at hzero
      split at hzero
      · have hbytes := Option.some.inj hzero
        have hblit : readBytes (blit m.byte (g.ptr + sizeofNode).toNat
            (List.replicate size.toNat (0 : UInt8))) (g.ptr + sizeofNode).toNat
              (List.replicate size.toNat (0 : UInt8)).length = List.replicate size.toNat 0 :=
          readBytes_blit
        rw [hlength] at hblit
        exact readBytes_eq_iff.mp (hbytes.trans hblit.symm) i hi
      · cases hzero
    · have hold : g' ∈ s₀.region.first :: m.live := by
        rcases List.mem_cons.mp hg' with rfl | hg'
        · exact List.mem_cons_self
        · rcases List.mem_cons.mp hg' with rfl | hg'
          · obtain ⟨hle, hle'⟩ := hc
            exact absurd ⟨hle, by simp only at hle'; omega⟩ hin
          · exact List.mem_cons_of_mem _ hg'
      have hsame : s'.heap.bytes c = s.heap.bytes c := by
        have hread := hkeep c 1 (hm.valid hfirst ⟨g', hold, hc⟩) (hm.header_apart hfirst hold hc)
        simpa [readBytes] using hread
      have hblit : blit m.byte (g.ptr + sizeofNode).toNat (List.replicate size.toNat 0) c =
          m.byte c := by
        rcases Nat.lt_or_ge c (g.ptr + sizeofNode).toNat with hlt | hge
        · exact blit_of_lt hlt
        · apply blit_of_le
          rw [hlength]
          omega
      rw [hsame, hm.bytes g' hold c hc]
      exact hblit.symm

end

/-! ## Runs

One call of the library is one call of the memory, so a run of the library is one of the
memory, with the same answers. -/

section

variable {s₀ s s' : State} {h : List Event} {m : Memory} {op : Op} {r : Result}

/-- What a call is for the list of the segments. -/
def Result.event? : Result → Option Event
  | .bytes _ => none
  | .event e => some e

/-- **One call.** The memory can do what the library does, with the same answer, and then shows
what the library has. -/
theorem Shows.operate (hm : Shows s₀ h s m)
    (hfirst : ⟨s₀.region.start.toNat, s₀.region.size.toNat⟩ ∈ s₀.heap.live)
    (hop : operate s op = some (s', r)) (hlive : op.Live s₀.region.first (segments h)) :
    ∃ m', m.Does s₀.region.first op r m' ∧ Shows s₀ (r.event?.toList ++ h) s' m' := by
  cases op with
  | read source size =>
    obtain ⟨bs, hbs, heq⟩ := Option.map_eq_some_iff.mp hop
    obtain ⟨rfl, rfl⟩ := Prod.mk.inj heq
    have hin : ∃ g ∈ s₀.region.first :: m.live, g.Holds source.toNat size.toNat := by
      rw [hm.live]
      exact hlive
    obtain rfl := Option.some.inj (hbs.symm.trans (hm.read hfirst hin))
    exact ⟨m, .read hin, hm⟩
  | call c =>
    obtain ⟨⟨s₁, e⟩, hs, heq⟩ := Option.map_eq_some_iff.mp hop
    obtain ⟨rfl, rfl⟩ := Prod.mk.inj heq
    cases c with
    | alloc size grant =>
      obtain ⟨⟨s₂, a⟩, halloc, heq⟩ := Option.map_eq_some_iff.mp hs
      obtain ⟨rfl, rfl⟩ := Prod.mk.inj heq
      have hi' := hm.inv.step hfirst hs trivial
      rcases tmAlloc_eq_some halloc with ⟨rfl, rfl, rfl⟩ | ⟨g, rfl, hg⟩
      · exact ⟨m, .nomem, hi', hm.live, hm.bytes⟩
      · obtain ⟨s₃, hs₃, -⟩ := hm.inv.listed.tmAlloc hg
        obtain ⟨rfl, rfl⟩ := Prod.mk.inj (Option.some.inj (halloc.symm.trans hs₃))
        obtain ⟨hapart, hm'⟩ := hm.alloc hfirst hg hi' halloc
        exact ⟨_, .alloc hapart, hm'⟩
    | free segment =>
      obtain ⟨s₂, hfree, heq⟩ := Option.map_eq_some_iff.mp hs
      obtain ⟨rfl, rfl⟩ := Prod.mk.inj heq
      obtain ⟨g, hg, rfl⟩ := hlive
      rw [← hm.live] at hg
      exact ⟨_, .free hg, hm.free hfirst hg hfree⟩
    | write source target =>
      obtain ⟨s₂, hwrite, heq⟩ := Option.map_eq_some_iff.mp hs
      obtain ⟨rfl, rfl⟩ := Prod.mk.inj heq
      have hi' := hm.inv.step hfirst hs hlive
      have hin : ∃ g ∈ s₀.region.first :: m.live, g.Holds target.toNat source.length := by
        rw [hm.live]
        exact hlive
      exact ⟨_, .write hin, hm.write hwrite hi'⟩

/-- No call to live segments is undefined. -/
theorem Shows.defined (hm : Shows s₀ h s m)
    (hfirst : ⟨s₀.region.start.toNat, s₀.region.size.toNat⟩ ∈ s₀.heap.live)
    (hlive : op.Live s₀.region.first (segments h))
    (hgrant : ∀ size g, op = .call (.alloc size (some g)) → Granted s size g) :
    ∃ s' r, Reference.operate s op = some (s', r) := by
  rw [← hm.live] at hlive
  cases op with
  | read source size =>
    refine ⟨s, .bytes (readBytes m.byte source.toNat size.toNat), ?_⟩
    rw [Reference.operate, hm.read hfirst hlive, Option.map_some]
  | call c =>
    cases c with
    | alloc size grant =>
      cases grant with
      | none => exact ⟨s, .event (.alloc size .nomem), rfl⟩
      | some g =>
        obtain ⟨s', hs', -⟩ := hm.inv.listed.tmAlloc (hgrant size g rfl)
        refine ⟨s', .event (.alloc size (.success (g.ptr + sizeofNode))), ?_⟩
        rw [Reference.operate, step, hs', Option.map_some, Option.map_some]
    | free segment =>
      obtain ⟨g, hg, rfl⟩ := hlive
      obtain ⟨s', hs', -⟩ := hm.inv.tmFree (hm.live ▸ hg)
      refine ⟨s', .event (.free g.address), ?_⟩
      rw [Reference.operate, step, hs', Option.map_some, Option.map_some]
    | write source target =>
      refine ⟨{ s with heap := { s.heap with bytes := blit s.heap.bytes target.toNat source } },
        .event (.write target source.length), ?_⟩
      rw [Reference.operate, step, tmWrite, State.copy, (hm.valid hfirst hlive).store,
        Option.map_some, Option.map_some, Option.map_some]

end

section

variable [DecidableEq τ] [Fintype τ] {s₀ s : Shared τ} {h : List (GuardEvent τ Op Result)}
  {sizeofRegion : ℕ} {heap : ByteHeap} {size align : UInt64} {region start : Option Grant}
  {lockInit : Bool}

/-- The library and the memory of its clients do the same. -/
def OperatesBoth (first : Segment) (p : State × Memory) (op : Op) (r : Result)
    (p' : State × Memory) : Prop := Operates p.1 op r p'.1 ∧ p.2.Does first op r p'.2

/-- The first segment of a new region holds zeros. -/
theorem tmCreate_zero {s₀ : State} (hc : tmCreate sizeofRegion heap size align region start
    lockInit = some (.shared s₀)) :
    ∃ heap' : ByteHeap, heap'.store s₀.region.start.toNat
      (List.replicate s₀.region.size.toNat 0) = some s₀.heap := by
  rw [tmCreate] at hc
  obtain ⟨⟨heap₁, o₁⟩, -, hc⟩ := Option.bind_eq_some_iff.mp hc
  cases o₁ with
  | none => cases hc
  | some p₁ =>
    obtain ⟨⟨heap₂, o₂⟩, -, hc⟩ := Option.bind_eq_some_iff.mp hc
    cases o₂ with
    | none =>
      obtain ⟨heap₃, -, hc⟩ := Option.bind_eq_some_iff.mp hc
      cases hc
    | some p₂ =>
      dsimp only at hc
      split at hc
      · obtain ⟨heap₃, -, hc⟩ := Option.bind_eq_some_iff.mp hc
        obtain ⟨heap₄, -, hc⟩ := Option.bind_eq_some_iff.mp hc
        cases hc
      · obtain ⟨heap₃, hstore, hc⟩ := Option.bind_eq_some_iff.mp hc
        cases hc
        exact ⟨heap₂, hstore⟩

/-- A new region shows a memory of zeros. -/
theorem Shows.init {s₀ : State} (hc : tmCreate sizeofRegion heap size align region start
    lockInit = some (.shared s₀)) : Shows s₀ [] s₀ ⟨[], fun _ => 0⟩ := by
  refine ⟨ListInv.run hc .start, rfl, ?_⟩
  intro g hg c hin
  obtain rfl := List.mem_singleton.mp hg
  obtain ⟨heap', hstore⟩ := tmCreate_zero hc
  obtain ⟨hle, hlt⟩ := hin
  simp only [Region.first] at hle hlt
  have hbytes := (ByteHeap.store_eq_some hstore).2.2.2
  rw [hbytes, blit, if_pos hle]
  exact List.getD_replicate _ (by omega)

/-- What every run of clients that access live segments keeps. -/
theorem Shared.shows (hidle : s₀.Idle)
    (hc : tmCreate sizeofRegion heap size align region start lockInit =
      some (.shared s₀.memory))
    (hr : Run Shared.step (AccessLive s₀.memory.region.first) s₀ h s) :
    Handles s ∧ ∃ m, Shows s₀.memory (memoryEvents h) s.memory m ∧
      SessionInv (OperatesBoth s₀.memory.region.first) Op.IsRead (s₀.memory, ⟨[], fun _ => 0⟩) h
        (s.memory, m) s.lock := by
  obtain ⟨-, hlive⟩ := tmCreate_eq_shared hc
  induction hr with
  | start =>
    refine ⟨hidle.handles, _, Shows.init hc, ?_⟩
    rw [hidle.1]
    exact .init
  | @next h s s' a e hr hs hq ih =>
    obtain ⟨hh, m, hm, hi⟩ := ih
    obtain ⟨hh', hcases⟩ := Shared.step_cases hh hs
    refine ⟨hh', ?_⟩
    have hread : ∀ {p : State × Memory} {op r p'}, op.IsRead →
        OperatesBoth s₀.memory.region.first p op r p' → p' = p := by
      rintro ⟨s, m⟩ op r ⟨s', m'⟩ hread ⟨hop, hdoes⟩
      have hsame := operate_of_isRead hread hop
      cases hdoes with
      | read => exact Prod.ext hsame rfl
      | _ => exact hread.elim
    rcases hcases with ⟨hne, hmem, hlock⟩ | ⟨t, k, op, r, rfl, hk, hlock, hop⟩
    · have hsame : memoryEvents (e :: h) = memoryEvents h := by
        cases e with
        | did t op r => exact absurd rfl (hne t op r)
        | _ => rfl
      refine ⟨m, ?_, hi.step hread ?_⟩
      · rw [hsame, hmem]
        exact hm
      · rw [hmem]
        exact hlock _ _
    · obtain ⟨hreaders, haccess⟩ := hq
      obtain ⟨m', hdoes, hm'⟩ := hm.operate (hlive ▸ List.mem_cons_self) hop haccess
      refine ⟨m', ?_, hi.step hread ?_⟩
      · cases r <;> exact hm'
      · rw [hlock]
        exact .did hk ⟨hop, hdoes⟩ fun hshared => hreaders (hh.readOnly hk hshared)

/-- The memory `m` is what the library, in the state `s` that the history `h` led to, makes of
its region. -/
structure Refines (s₀ : Shared τ) (h : List (GuardEvent τ Op Result)) (s : Shared τ)
    (m : Memory) : Prop where
  /-- the memory does the calls of all transactions, one transaction after the other -/
  performs : Performs (Memory.Does s₀.memory.region.first) ⟨[], fun _ => 0⟩ (serial h) m
  /-- the segments of the memory are those that were allocated and not freed -/
  live : m.live = segments (memoryEvents h)
  /-- the headers of these segments are the list that begins at `allocs` -/
  list : SegmentList s.memory (m.live.map Segment.header)
  /-- the heap has their blocks, and those that the region began with -/
  heap : s.memory.heap.live = m.live.map Segment.block ++ s₀.memory.heap.live
  /-- the bytes of the memory are those of the segments -/
  bytes : ∀ g ∈ s₀.memory.region.first :: m.live,
    tmRead s.memory g.address g.size = some (readBytes m.byte g.address.toNat g.size.toNat)
  /-- no call on its segments is undefined -/
  defined : ∀ t op, s.tx t ≠ invalidTx → op.Live s₀.memory.region.first m.live →
    (∀ size g, op = .call (.alloc size (some g)) → Granted s.memory size g) →
    ∃ s' r, s.step (.operate t op) = some (s', .did t op r)
  /-- a segment that is freed is gone from the list and from the heap -/
  freed : ∀ t g, s.tx t ≠ invalidTx → g ∈ m.live → ∃ s' nodes,
    s.step (.operate t (.call (.free g.address))) =
      some (s', .did t (.call (.free g.address)) (.event (.free g.address))) ∧
    SegmentList s'.memory nodes ∧ g.header ∉ nodes ∧ g.block ∉ s'.memory.heap.live

/-- **The reference library is a serializable memory.** From `tm_create` on, in every run
whose clients access live segments only, and only read in read-only transactions: a memory of
segments and bytes, all zero at first, does the calls of all transactions with the same
results, each transaction as a whole and one after the other in the order in which they began;
its segments are those of the list and of the heap, its bytes are theirs; no such call is
undefined, and a freed segment is gone. -/
theorem refines_memory (hidle : s₀.Idle)
    (hc : tmCreate sizeofRegion heap size align region start lockInit =
      some (.shared s₀.memory))
    (hr : Run Shared.step (AccessLive s₀.memory.region.first) s₀ h s) :
    ∃ m, Refines s₀ h s m := by
  obtain ⟨-, m, hm, hi⟩ := Shared.shows hidle hc hr
  obtain ⟨-, hlive⟩ := tmCreate_eq_shared hc
  have hfirst : ⟨s₀.memory.region.start.toNat, s₀.memory.region.size.toNat⟩ ∈
      s₀.memory.heap.live := hlive ▸ List.mem_cons_self
  refine ⟨m, hi.performs.map Prod.snd fun hboth => hboth.2, hm.live, ?_, ?_, fun g hg => ?_,
    fun t op ht haccess hgrant => ?_, fun t g ht hg => ?_⟩
  · rw [hm.live]
    exact hm.inv.listed.segmentList
  · rw [hm.live]
    exact hm.inv.live
  · exact hm.read hfirst ⟨g, hg, le_rfl, le_rfl⟩
  · rw [hm.live] at haccess
    obtain ⟨memory, r, hop⟩ := hm.defined hfirst haccess hgrant
    refine ⟨{ s with memory := memory }, r, ?_⟩
    rw [Shared.step, if_neg ht, hop, Option.map_some]
  · rw [hm.live] at hg
    obtain ⟨memory, hfree, hi', -⟩ := hm.inv.tmFree hg
    obtain ⟨hlist, hheap⟩ := hm.inv.gone hg hi'
    refine ⟨{ s with memory := memory }, _, ?_, hi'.listed.segmentList, hlist, hheap⟩
    rw [Shared.step, if_neg ht, operate, step, hfree]
    rfl

end

/-- A thread allocates a segment and writes to it, another one reads it, and the first one
frees it. -/
def lendSegment : List (Request Bool) :=
  [.tmBegin true false true, .operate true (.call (.alloc 8 (some (grantAt 16384)))),
    .operate true (.call (.write [1, 2] 16402)), .tmEnd true, .tmBegin false true true,
    .operate false (.read 16400 4), .tmEnd false, .tmBegin true false true,
    .operate true (.call (.free 16400)), .tmEnd true]

/-- The new segment holds zeros and what was written. -/
theorem refines_memory_lend :
    ∃ (s₀ s : Shared Bool) (h : List (GuardEvent Bool Op Result)) (m : Memory),
      Run Shared.step (AccessLive s₀.memory.region.first) s₀ h s ∧
      answers h = [(true, .exclusive, [.event (.alloc 8 (.success 16400)),
        .event (.write 16402 2)]), (false, .shared, [.bytes [0, 0, 1, 2]]),
        (true, .exclusive, [.event (.free 16400)])] ∧
      Refines s₀ h s m := by
  have hexec : ((tmCreate 88 noBlocks 64 8 (some (grantAt 4096)) (some (grantAt 8192)) true).bind
      fun c => match c with
        | .shared s₀ => (execUnder Shared.step (AccessLive s₀.region.first) lendSegment
            (⟨s₀, .init, fun _ => invalidTx⟩, [])).map fun p => answers p.2
        | .invalid _ => none) = some [(true, .exclusive, [.event (.alloc 8 (.success 16400)),
          .event (.write 16402 2)]), (false, .shared, [.bytes [0, 0, 1, 2]]),
          (true, .exclusive, [.event (.free 16400)])] := by
    decide +kernel
  obtain ⟨c, hc, hexec⟩ := Option.bind_eq_some_iff.mp hexec
  cases c with
  | invalid heap => cases hexec
  | shared memory =>
    obtain ⟨⟨s, h⟩, hexec, hanswers⟩ := Option.map_eq_some_iff.mp hexec
    obtain ⟨s, hr, -⟩ := Run.of_execUnder (f := fun _ => ()) lendSegment .start
      (congrArg (Option.map fun p => (p.2, ())) hexec)
    have hidle : Shared.Idle (⟨memory, .init, fun _ => invalidTx⟩ : Shared Bool) :=
      ⟨rfl, fun _ => rfl⟩
    obtain ⟨m, hm⟩ := refines_memory hidle hc hr
    exact ⟨_, s, h, m, hr, hanswers, hm⟩

end Reference

end DualStm
