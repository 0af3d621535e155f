import DualStm.Library.Order
import Mathlib.Data.List.Induction
import Mathlib.Logic.Function.Basic

/-!
# Serial replays

Transactions are recorded as lists of accesses, oldest first, a read with the
value it returned. Replaying a list on a plain memory checks the reads and
performs the writes; a set of transactions is serial in some order if the
concatenation of their lists replays.

The main result is about transactions that all read from one snapshot and of
which no two write the same place. For those an order is serial exactly when
nobody comes after a transaction that changed what it read from the snapshot, so
a serial order exists exactly when this relation has no cycle.
-/

namespace DualStm

universe u v w

variable {ι : Type u} {L : Type v} {V : Type w}

/-- A read with its result, or a write. -/
inductive Access (L : Type v) (V : Type w) where
  /-- a read that returned `v` -/
  | read (ℓ : L) (v : V)
  /-- a write of `v` -/
  | write (ℓ : L) (v : V)
  deriving DecidableEq

/-- The place that an access is about. -/
def Access.place : Access L V → L
  | .read ℓ _ => ℓ
  | .write ℓ _ => ℓ

variable [DecidableEq L]

/-- The value last written to a place. -/
def lastIn (ℓ : L) : List (Access L V) → Option V
  | [] => none
  | .read _ _ :: as => lastIn ℓ as
  | .write ℓ' v :: as => (lastIn ℓ as).or (if ℓ' = ℓ then some v else none)

/-- The memory after the writes of a list. -/
def overlay (m : L → V) (as : List (Access L V)) (ℓ : L) : V := (lastIn ℓ as).getD (m ℓ)

/-- Replay on a plain memory: every read finds the value it returned. -/
def Replays (m : L → V) : List (Access L V) → (L → V) → Prop
  | [], m' => m' = m
  | .read ℓ v :: as, m' => m ℓ = v ∧ Replays m as m'
  | .write ℓ v :: as, m' => Replays (Function.update m ℓ v) as m'

/-- Every read returned the value its own list wrote last, or the one in `m`. -/
def Consistent (m : L → V) (as : List (Access L V)) : Prop :=
  ∀ pre post ℓ v, as = pre ++ .read ℓ v :: post → v = (lastIn ℓ pre).getD (m ℓ)

/-- The list reads `v` from the place before it writes it. -/
def ReadsFirst (as : List (Access L V)) (ℓ : L) (v : V) : Prop :=
  ∃ pre post, as = pre ++ .read ℓ v :: post ∧ lastIn ℓ pre = none

/-! ## One list

A list of accesses is consistent with a memory if each read returns what was last written in
the list, or else what the memory has. What it leaves in the memory are its last writes. -/

section

variable {m m' : L → V} {as bs : List (Access L V)} {ℓ : L} {v : V}

theorem lastIn_append : lastIn ℓ (as ++ bs) = (lastIn ℓ bs).or (lastIn ℓ as) := by
  induction as with
  | nil => simp [lastIn]
  | cons a as ih =>
    cases a with
    | read ℓ' v => rw [List.cons_append, lastIn, lastIn, ih]
    | write ℓ' v => rw [List.cons_append, lastIn, lastIn, ih, Option.or_assoc]

/-- The last write is one of the writes. -/
theorem mem_of_lastIn (h : lastIn ℓ as = some v) : .write ℓ v ∈ as := by
  induction as with
  | nil => cases h
  | cons a as ih =>
    cases a with
    | read ℓ' w => exact List.mem_cons_of_mem _ (ih h)
    | write ℓ' w =>
      rw [lastIn, Option.or_eq_some_iff] at h
      rcases h with h | ⟨-, h⟩
      · exact List.mem_cons_of_mem _ (ih h)
      · split at h
        · rename_i hℓ
          obtain rfl := Option.some.inj h
          rw [hℓ]
          exact List.mem_cons_self
        · cases h

/-- A place that was written has a last write. -/
theorem lastIn_isSome (h : .write ℓ v ∈ as) : ∃ w, lastIn ℓ as = some w := by
  obtain ⟨pre, post, rfl⟩ := List.append_of_mem h
  rw [lastIn_append, lastIn]
  cases lastIn ℓ post with
  | none => exact ⟨v, by simp⟩
  | some w => exact ⟨w, rfl⟩

theorem overlay_append : overlay m (as ++ bs) = overlay (overlay m as) bs := by
  funext ℓ
  simp only [overlay, lastIn_append]
  cases lastIn ℓ bs <;> rfl

theorem overlay_read : overlay m [.read ℓ v] = m := rfl

theorem overlay_write : overlay m [.write ℓ v] = Function.update m ℓ v := by
  funext k
  obtain rfl | hk := eq_or_ne k ℓ
  · simp [overlay, lastIn]
  · simp [overlay, lastIn, Function.update_of_ne hk, Ne.symm hk]

/-- Consistency of a longer list: the second part starts from the overlay. -/
theorem consistent_append :
    Consistent m (as ++ bs) ↔ Consistent m as ∧ Consistent (overlay m as) bs := by
  constructor
  · intro h
    refine ⟨fun pre post ℓ v has => h pre (post ++ bs) ℓ v (by simp [has]),
      fun pre post ℓ v hbs => ?_⟩
    rw [h (as ++ pre) post ℓ v (by simp [hbs]), lastIn_append]
    cases hp : lastIn ℓ pre <;> simp [overlay]
  · rintro ⟨h₁, h₂⟩ pre post ℓ v heq
    rcases List.append_eq_append_iff.mp heq with ⟨pre', hpre, hbs⟩ | ⟨rest, has, hrest⟩
    · rw [hpre, lastIn_append, h₂ pre' post ℓ v hbs]
      cases hp : lastIn ℓ pre' <;> simp [overlay]
    · -- the read is in the first part, unless that part ends right before it
      cases rest with
      | nil =>
        have hpre : as = pre := by simpa using has
        subst hpre
        exact h₂ [] post ℓ v (by simpa using hrest.symm)
      | cons a rest =>
        obtain ⟨rfl, -⟩ := List.cons.inj hrest
        exact h₁ pre rest ℓ v has

theorem consistent_nil : Consistent m ([] : List (Access L V)) := by
  intro pre post ℓ v h
  cases pre <;> cases h

theorem consistent_read : Consistent m [.read ℓ v] ↔ m ℓ = v := by
  constructor
  · exact fun h => (h [] [] ℓ v rfl).symm
  · rintro rfl pre post k v' h
    cases pre with
    | nil =>
      obtain ⟨h, -⟩ := List.cons.inj h
      injection h with h₁ h₂
      subst h₁ h₂
      rfl
    | cons a pre =>
      obtain ⟨-, h⟩ := List.cons.inj h
      cases pre <;> cases h

theorem consistent_write : Consistent m [.write ℓ v] := by
  intro pre post k v' h
  cases pre with
  | nil => cases (List.cons.inj h).1
  | cons a pre =>
    obtain ⟨-, h⟩ := List.cons.inj h
    cases pre <;> cases h

/-- What a consistent list reads first is the value in the snapshot. -/
theorem Consistent.readsFirst (hm : Consistent m as) (h : ReadsFirst as ℓ v) : v = m ℓ := by
  obtain ⟨pre, post, has, hpre⟩ := h
  have := hm pre post ℓ v has
  rwa [hpre] at this

/-- A list replays exactly when it is consistent, and leaves its overlay. -/
theorem replays_iff : Replays m as m' ↔ Consistent m as ∧ m' = overlay m as := by
  induction as generalizing m with
  | nil => exact ⟨fun h => ⟨consistent_nil, h⟩, fun h => h.2⟩
  | cons a as ih =>
    rw [← List.singleton_append, consistent_append, overlay_append]
    cases a with
    | read ℓ v =>
      rw [List.singleton_append, Replays, ih, consistent_read, overlay_read, and_assoc]
    | write ℓ v =>
      rw [List.singleton_append, Replays, ih, overlay_write]
      exact ⟨fun h => ⟨⟨consistent_write, h.1⟩, h.2⟩, fun h => ⟨h.1.2, h.2⟩⟩

/-- Moved to another memory, a consistent list stays so if what it reads first is
unchanged, and only then. -/
theorem consistent_iff_of_readsFirst (hm : Consistent m as) :
    Consistent m' as ↔ ∀ ℓ v, ReadsFirst as ℓ v → m' ℓ = m ℓ := by
  constructor
  · rintro h ℓ v ⟨pre, post, has, hpre⟩
    have h₁ := hm pre post ℓ v has
    have h₂ := h pre post ℓ v has
    rw [hpre, Option.getD_none] at h₁ h₂
    rw [← h₁, ← h₂]
  · intro h pre post ℓ v has
    have h₁ := hm pre post ℓ v has
    cases hpre : lastIn ℓ pre with
    | none =>
      rw [hpre, Option.getD_none] at h₁
      rw [Option.getD_none, h ℓ v ⟨pre, post, has, hpre⟩]
      exact h₁
    | some w =>
      rw [hpre] at h₁
      exact h₁

end

/-! ## Many lists with one writer each

Several lists that read from the same snapshot, of which no two write the same place. A list
that has read what another one changes has to come before it, so the lists have an order if
these demands have no cycle. -/

section

variable (acc : ι → List (Access L V)) (m : L → V)

/-- `a` read from the snapshot what `b` changed, so it has to come before `b`. -/
def ComesBefore (a b : ι) : Prop :=
  a ≠ b ∧ ∃ ℓ v w, ReadsFirst (acc a) ℓ v ∧ lastIn ℓ (acc b) = some w ∧ w ≠ m ℓ

variable {acc m} {l : List ι}

theorem lastIn_flatMap_eq_none {ℓ : L} :
    lastIn ℓ (l.flatMap acc) = none ↔ ∀ a ∈ l, lastIn ℓ (acc a) = none := by
  induction l with
  | nil => simp [lastIn]
  | cons a l ih =>
    rw [List.flatMap_cons, lastIn_append, Option.or_eq_none_iff, ih, List.forall_mem_cons,
      and_comm]

/-- The last write of many lists is one of theirs. -/
theorem exists_of_lastIn_flatMap {ℓ : L} {w : V} (h : lastIn ℓ (l.flatMap acc) = some w) :
    ∃ a ∈ l, lastIn ℓ (acc a) = some w := by
  induction l with
  | nil => cases h
  | cons a l ih =>
    rw [List.flatMap_cons, lastIn_append] at h
    cases hrest : lastIn ℓ (l.flatMap acc) with
    | none =>
      rw [hrest] at h
      exact ⟨a, List.mem_cons_self, h⟩
    | some w' =>
      rw [hrest] at h
      obtain rfl : w' = w := Option.some.inj h
      obtain ⟨b, hb, hw⟩ := ih hrest
      exact ⟨b, List.mem_cons_of_mem _ hb, hw⟩

/-- What the only writer of a place wrote stands there in the end. -/
theorem overlay_flatMap {ℓ : L} {a : ι} {w : V} (ha : a ∈ l) (hw : lastIn ℓ (acc a) = some w)
    (huniq : ∀ b ∈ l, ∀ w', lastIn ℓ (acc b) = some w' → b = a) :
    overlay m (l.flatMap acc) ℓ = w := by
  cases h : lastIn ℓ (l.flatMap acc) with
  | none =>
    rw [lastIn_flatMap_eq_none.mp h a ha] at hw
    cases hw
  | some w' =>
    obtain ⟨b, hb, hw'⟩ := exists_of_lastIn_flatMap h
    rw [huniq b hb w' hw', hw] at hw'
    rw [overlay, h]
    exact (Option.some.inj hw').symm

/-- Lists that agree with the snapshot on a place leave it alone. -/
theorem overlay_flatMap_eq_iff {ℓ : L}
    (huniq : ∀ a ∈ l, ∀ b ∈ l, ∀ w w', lastIn ℓ (acc a) = some w →
      lastIn ℓ (acc b) = some w' → a = b) :
    overlay m (l.flatMap acc) ℓ = m ℓ ↔ ∀ a ∈ l, ∀ w, lastIn ℓ (acc a) = some w → w = m ℓ := by
  constructor
  · intro h a ha w hw
    rw [← h]
    exact (overlay_flatMap ha hw fun b hb w' hw' => huniq b hb a ha w' w hw' hw).symm
  · intro h
    cases hl : lastIn ℓ (l.flatMap acc) with
    | none => rw [overlay, hl, Option.getD_none]
    | some w =>
      obtain ⟨a, ha, hw⟩ := exists_of_lastIn_flatMap hl
      rw [overlay, hl, Option.getD_some, h a ha w hw]

/-- **When an order is serial.** Lists that read from the snapshot `m`, no two of
them writing the same place, replay in a given order exactly when nobody comes
after a list that changed what it read. -/
theorem consistent_flatMap_iff (hl : l.Nodup) (hsnap : ∀ a ∈ l, Consistent m (acc a))
    (huniq : ∀ ℓ, ∀ a ∈ l, ∀ b ∈ l, ∀ w w', lastIn ℓ (acc a) = some w →
      lastIn ℓ (acc b) = some w' → a = b) :
    Consistent m (l.flatMap acc) ↔ Respects (ComesBefore acc m) l := by
  induction l using List.reverseRecOn with
  | nil => exact ⟨fun _ => List.Pairwise.nil, fun _ => consistent_nil⟩
  | append_singleton l b ih =>
    have hmem : ∀ {a}, a ∈ l → a ∈ l ++ [b] := fun ha => List.mem_append_left _ ha
    have hb : b ∈ l ++ [b] := List.mem_append_right _ List.mem_cons_self
    obtain ⟨hl', -, hdisj⟩ := List.nodup_append.mp hl
    have hne : ∀ {a}, a ∈ l → b ≠ a := fun ha => (hdisj _ ha _ List.mem_cons_self).symm
    have ih := ih hl' (fun a ha => hsnap a (hmem ha)) fun ℓ a ha c hc =>
      huniq ℓ a (hmem ha) c (hmem hc)
    -- the new list finds what it read first if nobody before it changed it
    have hlast : Consistent (overlay m (l.flatMap acc)) (acc b) ↔
        ∀ a ∈ l, ¬ ComesBefore acc m b a := by
      rw [consistent_iff_of_readsFirst (hsnap b hb)]
      constructor
      · rintro h a ha ⟨-, ℓ, v, w, hread, hw, hwm⟩
        have := (overlay_flatMap_eq_iff fun c hc d hd =>
          huniq ℓ c (hmem hc) d (hmem hd)).mp (h ℓ v hread)
        exact hwm (this a ha w hw)
      · intro h ℓ v hread
        rw [overlay_flatMap_eq_iff fun c hc d hd => huniq ℓ c (hmem hc) d (hmem hd)]
        intro a ha w hw
        by_contra hwm
        exact h a ha ⟨hne ha, ℓ, v, w, hread, hw, hwm⟩
    rw [List.flatMap_append, consistent_append, ih, List.flatMap_singleton, hlast]
    simp only [Respects, List.pairwise_append, List.pairwise_singleton, true_and,
      List.mem_singleton, forall_eq]

/-- The writes of many lists lead to `m'`, which has what the only writer of a place
wrote there and is `m` elsewhere. -/
theorem overlay_flatMap_eq {m' : L → V}
    (huniq : ∀ ℓ, ∀ a ∈ l, ∀ b ∈ l, ∀ w w', lastIn ℓ (acc a) = some w →
      lastIn ℓ (acc b) = some w' → a = b)
    (hsome : ∀ ℓ, ∀ a ∈ l, ∀ w, lastIn ℓ (acc a) = some w → m' ℓ = w)
    (hnone : ∀ ℓ, (∀ a ∈ l, lastIn ℓ (acc a) = none) → m' ℓ = m ℓ) :
    overlay m (l.flatMap acc) = m' := by
  funext ℓ
  by_cases hw : ∃ a ∈ l, ∃ w, lastIn ℓ (acc a) = some w
  · obtain ⟨a, ha, w, hw⟩ := hw
    rw [hsome ℓ a ha w hw]
    exact overlay_flatMap ha hw fun b hb w' hw' => huniq ℓ b hb a ha w' w hw' hw
  · have hn : ∀ a ∈ l, lastIn ℓ (acc a) = none := by
      intro a ha
      cases hw' : lastIn ℓ (acc a) with
      | none => rfl
      | some w => exact absurd ⟨a, ha, w, hw'⟩ hw
    rw [hnone ℓ hn, overlay, lastIn_flatMap_eq_none.mpr hn, Option.getD_none]

/-- **A serial order exists exactly without a cycle**, and all serial orders leave
the same memory. -/
theorem exists_serial_iff {m' : L → V} (hl : l.Nodup) (hsnap : ∀ a ∈ l, Consistent m (acc a))
    (huniq : ∀ ℓ, ∀ a ∈ l, ∀ b ∈ l, ∀ w w', lastIn ℓ (acc a) = some w →
      lastIn ℓ (acc b) = some w' → a = b)
    (hsome : ∀ ℓ, ∀ a ∈ l, ∀ w, lastIn ℓ (acc a) = some w → m' ℓ = w)
    (hnone : ∀ ℓ, (∀ a ∈ l, lastIn ℓ (acc a) = none) → m' ℓ = m ℓ) :
    (∃ l' : List ι, l'.Perm l ∧ Replays m (l'.flatMap acc) m') ↔
      AcyclicOn (ComesBefore acc m) l := by
  rw [← exists_respects_iff (fun a ha => ha.1 rfl) hl]
  refine exists_congr fun l' => and_congr_right fun hperm => ?_
  have hmem : ∀ {a}, a ∈ l' → a ∈ l := fun ha => hperm.mem_iff.mp ha
  have huniq' : ∀ ℓ, ∀ a ∈ l', ∀ b ∈ l', ∀ w w', lastIn ℓ (acc a) = some w →
      lastIn ℓ (acc b) = some w' → a = b := fun ℓ a ha b hb => huniq ℓ a (hmem ha) b (hmem hb)
  have hm' : overlay m (l'.flatMap acc) = m' :=
    overlay_flatMap_eq huniq' (fun ℓ a ha => hsome ℓ a (hmem ha)) fun ℓ hn =>
      hnone ℓ fun a ha => hn a (hperm.mem_iff.mpr ha)
  rw [replays_iff, and_iff_left hm'.symm]
  exact consistent_flatMap_iff (hperm.nodup_iff.mpr hl) (fun a ha => hsnap a (hmem ha)) huniq'

end

/-! ## One snapshot after the other

Groups of lists, each of which reads from the memory that the group before it leaves. An order
of each group, one after the other, is an order of all of them. -/

/-- Lists that read from `m`, of which no two write the same place, and the memory
`m'` with all their writes. -/
structure OneSnapshot (acc : ι → List (Access L V)) (m m' : L → V) (l : List ι) : Prop where
  /-- all of them read from `m` -/
  snap : ∀ a ∈ l, Consistent m (acc a)
  /-- a place has one writer -/
  unique : ∀ ℓ, ∀ a ∈ l, ∀ b ∈ l, ∀ w w', lastIn ℓ (acc a) = some w →
    lastIn ℓ (acc b) = some w' → a = b
  /-- the last write of the writer of a place is in `m'` -/
  wrote : ∀ ℓ, ∀ a ∈ l, ∀ w, lastIn ℓ (acc a) = some w → m' ℓ = w
  /-- a place without a writer stays as it was -/
  kept : ∀ ℓ, (∀ a ∈ l, lastIn ℓ (acc a) = none) → m' ℓ = m ℓ

namespace OneSnapshot

variable {acc : ι → List (Access L V)} {m m' : L → V} {l l' : List ι}

/-- The order of the lists does not matter. -/
theorem congr (hl : OneSnapshot acc m m' l) (hmem : ∀ a, a ∈ l' ↔ a ∈ l) :
    OneSnapshot acc m m' l' := by
  refine ⟨fun a ha => hl.snap a ((hmem a).mp ha), fun ℓ a ha b hb => ?_,
    fun ℓ a ha => hl.wrote ℓ a ((hmem a).mp ha), fun ℓ hn => ?_⟩
  · exact hl.unique ℓ a ((hmem a).mp ha) b ((hmem b).mp hb)
  · exact hl.kept ℓ fun a ha => hn a ((hmem a).mpr ha)

theorem overlay_eq (hl : OneSnapshot acc m m' l) : overlay m (l.flatMap acc) = m' :=
  overlay_flatMap_eq hl.unique hl.wrote hl.kept

theorem consistent_iff (hl : OneSnapshot acc m m' l) (hnodup : l.Nodup) :
    Consistent m (l.flatMap acc) ↔ Respects (ComesBefore acc m) l :=
  consistent_flatMap_iff hnodup hl.snap hl.unique

/-- Who writes every place it reads, if it writes at all, comes before nobody that
comes before others: there is no cycle. -/
theorem acyclicOn (hl : OneSnapshot acc m m' l)
    (hrw : ∀ a ∈ l, (∃ ℓ w, lastIn ℓ (acc a) = some w) → ∀ ℓ v, ReadsFirst (acc a) ℓ v →
      ∃ w, lastIn ℓ (acc a) = some w) : AcyclicOn (ComesBefore acc m) l := by
  intro a hcycle
  obtain ⟨b, ⟨ha, hb, hne, ℓ, v, w, hread, hw, -⟩, -⟩ :=
    Relation.TransGen.head'_iff.mp hcycle
  obtain ⟨c, -, -, -, -, k, v', w', -, hw', -⟩ := Relation.TransGen.tail'_iff.mp hcycle
  obtain ⟨u, hu⟩ := hrw a ha ⟨k, w', hw'⟩ ℓ v hread
  exact hne (hl.unique ℓ a ha b hb u w hu hw)

end OneSnapshot

section

variable {rank : ι → ℕ} {l : List ι}

/-- In a list sorted by rank the lower ranks come first. -/
theorem filter_rank_append (hs : l.Pairwise fun a b => rank a ≤ rank b) (k : ℕ) :
    (l.filter fun a => rank a < k) ++ (l.filter fun a => k ≤ rank a) = l := by
  induction l with
  | nil => rfl
  | cons a l ih =>
    obtain ⟨ha, hl⟩ := List.pairwise_cons.mp hs
    have ih := ih hl
    rcases Nat.lt_or_ge (rank a) k with hlt | hge
    · rw [List.filter_cons_of_pos (by simpa using hlt),
        List.filter_cons_of_neg (by simpa using hlt), List.cons_append, ih]
    · -- nothing that follows is lower
      have hnone : (l.filter fun a => rank a < k) = [] := by
        apply List.filter_eq_nil_iff.mpr
        intro b hb
        simpa using hge.trans (ha b hb)
      rw [hnone, List.nil_append] at ih
      rw [List.filter_cons_of_neg (by simpa using hge),
        List.filter_cons_of_pos (by simpa using hge), hnone, List.nil_append, ih]

/-- The ranks up to `k` are those below it, and `k`. -/
theorem filter_rank_succ (hs : l.Pairwise fun a b => rank a ≤ rank b) (k : ℕ) :
    (l.filter fun a => rank a < k + 1) =
      (l.filter fun a => rank a < k) ++ (l.filter fun a => rank a = k) := by
  conv_lhs => rw [← filter_rank_append hs k]
  rw [List.filter_append, List.filter_filter, List.filter_filter]
  congr 1
  · apply List.filter_congr
    intro a _
    rw [← Bool.decide_and, decide_eq_decide]
    omega
  · apply List.filter_congr
    intro a _
    rw [← Bool.decide_and, decide_eq_decide]
    omega

theorem filter_rank_start {lo : ℕ} (hlo : ∀ a ∈ l, lo ≤ rank a) :
    (l.filter fun a => rank a < lo) = [] := by
  apply List.filter_eq_nil_iff.mpr
  intro a ha
  simpa using hlo a ha

variable {b : ℕ → List ι} (hb : ∀ k, ∀ a ∈ b k, rank a = k)

include hb

/-- One block for each rank, one after the other, is sorted by rank. -/
theorem pairwise_rank_flatMap {n : ℕ} :
    ((List.range n).flatMap b).Pairwise fun a c => rank a ≤ rank c := by
  refine List.pairwise_flatMap.mpr ⟨?_, ?_⟩
  · intro k _
    apply List.pairwise_of_forall_mem_list
    intro a ha c hc
    rw [hb k a ha, hb k c hc]
  · apply List.pairwise_lt_range.imp
    intro j k hlt a ha c hc
    rw [hb j a ha, hb k c hc]
    exact hlt.le

/-- The elements of one rank are its block. -/
theorem filter_rank_flatMap {k n : ℕ} (hk : k < n) :
    (((List.range n).flatMap b).filter fun a => rank a = k) = b k := by
  have hother : ∀ j, j ≠ k → ((b j).filter fun a => rank a = k) = [] := by
    intro j hj
    apply List.filter_eq_nil_iff.mpr
    intro a ha
    rw [hb j a ha]
    simpa using hj
  induction n with
  | zero => omega
  | succ n ih =>
    rw [List.range_succ, List.flatMap_append, List.filter_append, List.flatMap_singleton]
    rcases Nat.lt_succ_iff_lt_or_eq.mp hk with hlt | rfl
    · rw [ih hlt, hother n (by omega), List.append_nil]
    · have hlow : (((List.range k).flatMap b).filter fun a => rank a = k) = [] := by
        apply List.filter_eq_nil_iff.mpr
        intro a ha
        obtain ⟨j, hj, ha⟩ := List.mem_flatMap.mp ha
        have := List.mem_range.mp hj
        rw [hb j a ha]
        simp only [decide_eq_true_eq]
        omega
      rw [hlow, List.nil_append]
      exact List.filter_eq_self.mpr fun a ha => decide_eq_true (hb k a ha)

end

section

variable (acc : ι → List (Access L V)) (rank : ι → ℕ) {l : List ι} {m : ℕ → L → V} {lo : ℕ}

/-- Each rank leads from the snapshot it starts with to the next one, so the ranks
below `k` lead to the snapshot `k`. -/
theorem overlay_ranks (hs : l.Pairwise fun a b => rank a ≤ rank b) (hlo : ∀ a ∈ l, lo ≤ rank a)
    {n : ℕ} (hstep : ∀ k, lo ≤ k → k < n →
      overlay (m k) ((l.filter fun a => rank a = k).flatMap acc) = m (k + 1))
    {k : ℕ} (hk : lo ≤ k) (hn : k ≤ n) :
    overlay (m lo) ((l.filter fun a => rank a < k).flatMap acc) = m k := by
  induction k, hk using Nat.le_induction with
  | base =>
    rw [filter_rank_start hlo, List.flatMap_nil]
    rfl
  | succ k hk ih =>
    rw [filter_rank_succ hs, List.flatMap_append, overlay_append, ih (Nat.le_of_succ_le hn),
      hstep k hk hn]

/-- A sorted order replays exactly when each rank does from its own snapshot. -/
theorem replays_ranks_iff (hs : l.Pairwise fun a b => rank a ≤ rank b)
    (hlo : ∀ a ∈ l, lo ≤ rank a) {n : ℕ} (hn : lo ≤ n) (hhi : ∀ a ∈ l, rank a < n)
    (hstep : ∀ k, lo ≤ k → k < n →
      overlay (m k) ((l.filter fun a => rank a = k).flatMap acc) = m (k + 1)) :
    Replays (m lo) (l.flatMap acc) (m n) ↔
      ∀ k, lo ≤ k → k < n → Consistent (m k) ((l.filter fun a => rank a = k).flatMap acc) := by
  have hall : (l.filter fun a => rank a < n) = l :=
    List.filter_eq_self.mpr fun a ha => decide_eq_true (hhi a ha)
  have hpart : ∀ k, lo ≤ k → k ≤ n →
      (Consistent (m lo) ((l.filter fun a => rank a < k).flatMap acc) ↔
        ∀ j, lo ≤ j → j < k → Consistent (m j) ((l.filter fun a => rank a = j).flatMap acc)) := by
    intro k hk
    induction k, hk using Nat.le_induction with
    | base =>
      intro _
      rw [filter_rank_start hlo, List.flatMap_nil]
      exact ⟨fun _ j hj hlt => absurd hlt (Nat.not_lt.mpr hj), fun _ => consistent_nil⟩
    | succ k hk ih =>
      intro hkn
      rw [filter_rank_succ hs, List.flatMap_append, consistent_append,
        ih (Nat.le_of_succ_le hkn),
        overlay_ranks acc rank hs hlo hstep hk (Nat.le_of_succ_le hkn)]
      constructor
      · rintro ⟨hlow, htop⟩ j hj hlt
        rcases Nat.lt_succ_iff_lt_or_eq.mp hlt with hlt | rfl
        · exact hlow j hj hlt
        · exact htop
      · intro hall
        exact ⟨fun j hj hlt => hall j hj (Nat.lt_succ_of_lt hlt), hall k hk (Nat.lt_succ_self k)⟩
  have hend := overlay_ranks acc rank hs hlo hstep hn le_rfl
  rw [hall] at hend
  rw [replays_iff, and_iff_left hend.symm, ← hpart n hn le_rfl, hall]

variable {b : ℕ → List ι} {n : ℕ}

/-- The members of one rank of an order of all blocks. -/
theorem OneSnapshot.filter_rank (hb : ∀ k, ∀ a ∈ b k, rank a = k)
    (hone : ∀ k, lo ≤ k → k < n → OneSnapshot acc (m k) (m (k + 1)) (b k))
    (hmem : ∀ a, a ∈ l ↔ ∃ k, (lo ≤ k ∧ k < n) ∧ a ∈ b k) {k : ℕ} (hk : lo ≤ k) (hn : k < n) :
    (∀ a, a ∈ l.filter (fun a => rank a = k) ↔ a ∈ b k) ∧
      OneSnapshot acc (m k) (m (k + 1)) (l.filter fun a => rank a = k) := by
  have hfilter : ∀ a, a ∈ l.filter (fun a => rank a = k) ↔ a ∈ b k := by
    intro a
    rw [List.mem_filter, hmem, decide_eq_true_iff]
    constructor
    · rintro ⟨⟨j, -, ha⟩, hrank⟩
      rwa [← hrank, hb j a ha]
    · intro ha
      exact ⟨⟨k, ⟨hk, hn⟩, ha⟩, hb k a ha⟩
  exact ⟨hfilter, (hone k hk hn).congr hfilter⟩

/-- **A serial order of all ranks exists exactly without a cycle in any of them.** -/
theorem exists_serial_ranks_iff (hb : ∀ k, ∀ a ∈ b k, rank a = k) (hnodup : ∀ k, (b k).Nodup)
    (hn : lo ≤ n) (hone : ∀ k, lo ≤ k → k < n → OneSnapshot acc (m k) (m (k + 1)) (b k)) :
    (∃ l : List ι, l.Nodup ∧ (∀ a, a ∈ l ↔ ∃ k, (lo ≤ k ∧ k < n) ∧ a ∈ b k) ∧
      (l.Pairwise fun a c => rank a ≤ rank c) ∧ Replays (m lo) (l.flatMap acc) (m n)) ↔
      ∀ k, lo ≤ k → k < n → AcyclicOn (ComesBefore acc (m k)) (b k) := by
  classical
  have hbounds : ∀ {l : List ι}, (∀ a, a ∈ l ↔ ∃ k, (lo ≤ k ∧ k < n) ∧ a ∈ b k) →
      ∀ a ∈ l, lo ≤ rank a ∧ rank a < n := by
    intro l hmem a ha
    obtain ⟨k, hk, ha⟩ := (hmem a).mp ha
    rwa [hb k a ha]
  constructor
  · rintro ⟨l, hl, hmem, hs, hreplay⟩ k hk hkn
    have hrank : ∀ {j}, lo ≤ j → j < n → _ := OneSnapshot.filter_rank acc rank hb hone hmem
    have hcons := (replays_ranks_iff acc rank hs (fun a ha => (hbounds hmem a ha).1) hn
      (fun a ha => (hbounds hmem a ha).2) fun j hj hjn => (hrank hj hjn).2.overlay_eq).mp
        hreplay k hk hkn
    have hnodup' : (l.filter fun a => rank a = k).Nodup := hl.filter _
    apply Respects.acyclicOn (fun a ha => ha.1 rfl)
      ((List.perm_ext_iff_of_nodup hnodup' (hnodup k)).mpr (hrank hk hkn).1)
    exact ((hrank hk hkn).2.consistent_iff hnodup').mp hcons
  · intro hacyclic
    have hex : ∀ k, ∃ l : List ι, (if lo ≤ k ∧ k < n then l.Perm (b k) ∧
        Respects (ComesBefore acc (m k)) l else l = []) := by
      intro k
      by_cases hk : lo ≤ k ∧ k < n
      · simp only [if_pos hk]
        exact (hacyclic k hk.1 hk.2).exists_respects (hnodup k)
      · simp only [if_neg hk]
        exact ⟨[], rfl⟩
    choose c hc using hex
    have hin : ∀ {k}, lo ≤ k → k < n →
        (c k).Perm (b k) ∧ Respects (ComesBefore acc (m k)) (c k) := by
      intro k hk hkn
      have := hc k
      rwa [if_pos ⟨hk, hkn⟩] at this
    have hout : ∀ {k a}, a ∈ c k → lo ≤ k ∧ k < n := by
      intro k a ha
      by_contra hk
      have := hc k
      rw [if_neg hk] at this
      rw [this] at ha
      cases ha
    have hcb : ∀ k, ∀ a ∈ c k, rank a = k := fun k a ha =>
      hb k a ((hin (hout ha).1 (hout ha).2).1.mem_iff.mp ha)
    have hmem : ∀ a, a ∈ (List.range n).flatMap c ↔ ∃ k, (lo ≤ k ∧ k < n) ∧ a ∈ b k := by
      intro a
      rw [List.mem_flatMap]
      constructor
      · rintro ⟨k, -, ha⟩
        exact ⟨k, hout ha, (hin (hout ha).1 (hout ha).2).1.mem_iff.mp ha⟩
      · rintro ⟨k, hk, ha⟩
        exact ⟨k, List.mem_range.mpr hk.2, (hin hk.1 hk.2).1.mem_iff.mpr ha⟩
    have hs := pairwise_rank_flatMap hcb (n := n)
    refine ⟨(List.range n).flatMap c, ?_, hmem, hs, ?_⟩
    · refine List.nodup_flatMap.mpr ⟨?_, ?_⟩
      · intro k _
        by_cases hk : lo ≤ k ∧ k < n
        · exact (hin hk.1 hk.2).1.nodup_iff.mpr (hnodup k)
        · have := hc k
          rw [if_neg hk] at this
          rw [this]
          exact List.nodup_nil
      · apply List.pairwise_lt_range.imp
        intro j k hlt a ha ha'
        exact hlt.ne ((hcb j a ha).symm.trans (hcb k a ha'))
    · apply (replays_ranks_iff acc rank hs (fun a ha => (hbounds hmem a ha).1) hn
        (fun a ha => (hbounds hmem a ha).2) fun j hj hjn =>
          (OneSnapshot.filter_rank acc rank hb hone hmem hj hjn).2.overlay_eq).mpr
      intro k hk hkn
      rw [filter_rank_flatMap hcb hkn, ((hone k hk hkn).congr fun a =>
        (hin hk hkn).1.mem_iff).consistent_iff ((hin hk hkn).1.nodup_iff.mpr (hnodup k))]
      exact (hin hk hkn).2

end

end DualStm
