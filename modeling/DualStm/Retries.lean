import DualStm.Transactions

/-!
# Transfers that are retried

`transactional` calls its closure until an attempt commits. The closure of `short_tx`
walks the list of accounts with `send_id` and `recv_id` themselves, which it captures by
reference, so that an attempt starts from where the one before it has got to.

Each attempt sees a memory of its own. Those that abort are told by that memory and the
number of the read or write at which they do.
-/

namespace DualStm

section

variable {M : Type} (bank : WorkloadBank) (mem : Memory M ℤ) (n : ℕ)

/-- An attempt that aborts at its operation `k`, the first one being 0: what it leaves in
the captured variables. `none` when it does not come to that operation within `n` turns. -/
def abortedAttempt (tx : Tx) (m : M) (k : ℕ) : Option Tx :=
  (Prog.loopLeftovers mem (turn bank) n (enter bank tx) tx m)[k]?

/-- `transactional`, given the attempts that abort, on the memory that the last one sees. -/
def transactional : List (M × ℕ) → Tx → M → Option (Option Bool × Tx × M)
  | [], tx, m => runTx bank mem n tx m
  | (m', k) :: attempts, tx, m =>
    (abortedAttempt bank mem n tx m' k).bind fun tx => transactional attempts tx m

/-- What the attempts that abort leave in the captured variables. -/
def abortedAttempts : List (M × ℕ) → Tx → Option Tx
  | [], tx => some tx
  | (m', k) :: attempts, tx =>
    (abortedAttempt bank mem n tx m' k).bind (abortedAttempts attempts)

theorem transactional_eq (attempts : List (M × ℕ)) (tx : Tx) (m : M) :
    transactional bank mem n attempts tx m =
      (abortedAttempts bank mem n attempts tx).bind fun tx => runTx bank mem n tx m := by
  induction attempts generalizing tx with
  | nil => rfl
  | cons a attempts ih =>
    rw [transactional, abortedAttempts, Option.bind_assoc]
    exact congrArg _ (funext ih)

variable {n} in
theorem abortedAttempt_mono {n' : ℕ} (hle : n ≤ n') {tx tx' : Tx} {m : M} {k : ℕ}
    (ha : abortedAttempt bank mem n tx m k = some tx') :
    abortedAttempt bank mem n' tx m k = some tx' := by
  obtain ⟨hk, hget⟩ := List.getElem?_eq_some_iff.mp ha
  exact (List.prefix_iff_getElem?.mp (Prog.loopLeftovers_prefix hle ..) k hk).trans
    (congrArg some hget)

variable {n} in
theorem abortedAttempts_mono {n' : ℕ} (hle : n ≤ n') {attempts : List (M × ℕ)} {tx tx' : Tx}
    (ha : abortedAttempts bank mem n attempts tx = some tx') :
    abortedAttempts bank mem n' attempts tx = some tx' := by
  induction attempts generalizing tx with
  | nil => exact ha
  | cons a attempts ih =>
    obtain ⟨tx₁, ha₁, ha⟩ := Option.bind_eq_some_iff.mp ha
    exact Option.bind_eq_some_iff.mpr ⟨tx₁, abortedAttempt_mono bank mem hle ha₁, ih ha⟩

variable {n} in
theorem transactional_mono {n' : ℕ} (hle : n ≤ n') {attempts : List (M × ℕ)} {tx : Tx} {m : M}
    {r : Option Bool × Tx × M} (hr : transactional bank mem n attempts tx m = some r) :
    transactional bank mem n' attempts tx m = some r := by
  rw [transactional_eq] at hr ⊢
  obtain ⟨tx', ha, hr⟩ := Option.bind_eq_some_iff.mp hr
  exact Option.bind_eq_some_iff.mpr
    ⟨tx', abortedAttempts_mono bank mem hle ha, Prog.loop_mono hle hr⟩

end

/-! ## What an attempt that aborts leaves

An attempt may abort at any of its operations. The ids it leaves in the captured variables are
those its search has counted down to, and a retry begins with them. -/

/-- A memory whose addresses are all words. -/
def plain : Memory (ℕ → ℤ) ℤ := Memory.ofPlaces some

@[simp] theorem plain_read (m : ℕ → ℤ) (a : ℕ) : plain.read m a = some (m a) := rfl

@[simp] theorem plain_write (m : ℕ → ℤ) (a : ℕ) (v : ℤ) :
    plain.write m a v = some (Function.update m a v) := rfl

/-- The number of accounts in the first segment that has any, from the segment at `addr` on;
0 if this is not among what the first `k` reads of a traversal see. -/
def firstCount (m : ℕ → ℤ) : ℕ → ℕ → ℕ
  | 0, _ => 0
  | 1, addr => (m (AccountSegment.ofAddress addr).count).toNat
  | k + 2, addr =>
    let segment := AccountSegment.ofAddress addr
    if (m segment.count).toNat = 0 then firstCount m k (m segment.next).toNat
    else (m segment.count).toNat

/-- An attempt on the list at `start` that aborts at its operation `k` finds both accounts
in the first segment that has any, or has not read how many that has. -/
def StopsEarly (m : ℕ → ℤ) (k start sendId recvId : ℕ) : Prop :=
  firstCount m k start = 0 ∨ max sendId recvId < firstCount m k start

instance (m : ℕ → ℤ) (k start sendId recvId : ℕ) : Decidable (StopsEarly m k start sendId recvId) :=
  inferInstanceAs (Decidable (_ ∨ _))

section

variable {C : Type} {c : C} {m : ℕ → ℤ} {a : ℕ}

@[simp] theorem readSize_leftovers : (Shared.readSize a).leftovers plain c m = [c] := rfl

@[simp] theorem readSize_run : (Shared.readSize a).run plain c m = some ((m a).toNat, c, m) := rfl

@[simp] theorem bindSegment_leftovers : (AccountSegment.bind a).leftovers plain c m = [] := by
  rw [AccountSegment.bind]
  split <;> rfl

theorem bindSegment_run (ha : a ≠ 0) :
    (AccountSegment.bind a).run plain c m = some (.ofAddress a, c, m) := by
  rw [AccountSegment.bind, if_neg ha]
  rfl

end

/-- A search that does no operation, and what it comes to. -/
def Finds (p : Prog Tx ℤ (ShortLocals × Bool)) (c : Tx) (r : ShortLocals × Bool) (c' : Tx) : Prop :=
  ∀ m, p.leftovers plain c m = [] ∧ p.run plain c m = some (r, c', m)

section

variable {segment : AccountSegment} {count : ℕ} {l : ShortLocals} {c : Tx}

theorem findSend_lt (hp : l.sendPtr = 0) (hlt : l.sendId < count) :
    Finds (findSend segment count l) c
      ({ l with sendPtr := segment.account l.sendId }, l.recvPtr != 0) c := by
  rw [findSend, if_pos hp, if_pos hlt]
  exact fun _ => ⟨rfl, rfl⟩

theorem findSend_ge (hp : l.sendPtr = 0) (hge : count ≤ l.sendId) :
    Finds (findSend segment count l) c ({ l with sendId := l.sendId - count }, false)
      (.short (l.sendId - count) l.recvId) := by
  rw [findSend, if_pos hp, if_neg (Nat.not_lt.mpr hge)]
  exact fun _ => ⟨rfl, rfl⟩

theorem findRecv_lt (hp : l.recvPtr = 0) (hlt : l.recvId < count) :
    Finds (findRecv segment count l) c
      ({ l with recvPtr := segment.account l.recvId }, l.sendPtr != 0) c := by
  rw [findRecv, if_pos hp, if_pos hlt]
  exact fun _ => ⟨rfl, rfl⟩

theorem findRecv_ge (hp : l.recvPtr = 0) (hge : count ≤ l.recvId) :
    Finds (findRecv segment count l) c ({ l with recvId := l.recvId - count }, false)
      (.short l.sendId (l.recvId - count)) := by
  rw [findRecv, if_pos hp, if_neg (Nat.not_lt.mpr hge)]
  exact fun _ => ⟨rfl, rfl⟩

end

section

variable {m : ℕ → ℤ} {l l₁ l₂ : ShortLocals} {c c₁ c₂ : Tx} {count : ℕ}

/-- A turn that does not find both accounts. -/
theorem shortTurn_on (hstart : l.start ≠ 0)
    (hcount : (m (AccountSegment.ofAddress l.start).count).toNat = count)
    (hsend : Finds (findSend (.ofAddress l.start) count l) c (l₁, false) c₁)
    (hrecv : Finds (findRecv (.ofAddress l.start) count l₁) c₁ (l₂, false) c₂) :
    (shortTurn l).leftovers plain c m = [c, c₂] ∧
      (shortTurn l).run plain c m =
        some (if (m (AccountSegment.ofAddress l.start).next).toNat = 0 then .inr false
          else .inl { l₂ with start := (m (AccountSegment.ofAddress l.start).next).toNat },
          c₂, m) := by
  constructor
  · simp only [shortTurn, Prog.leftovers_bind, bindSegment_leftovers, bindSegment_run hstart,
      readSize_leftovers, readSize_run, hcount, (hsend m).1, (hsend m).2, (hrecv m).1, (hrecv m).2,
      Option.map_some, Option.getD_some, List.nil_append, Bool.false_eq_true, if_false]
    split <;> rfl
  · simp only [shortTurn, Prog.run_bind, bindSegment_run hstart, readSize_run, hcount, (hsend m).2,
      (hrecv m).2, Option.bind_some, Bool.false_eq_true, if_false]
    split <;> rfl

/-- A turn that finds both accounts leaves the ids as the searches did, wherever it aborts
after that. -/
theorem shortTurn_found (hstart : l.start ≠ 0)
    (hcount : (m (AccountSegment.ofAddress l.start).count).toNat = count)
    (hsend : Finds (findSend (.ofAddress l.start) count l) c (l₁, false) c₁)
    (hrecv : Finds (findRecv (.ofAddress l.start) count l₁) c₁ (l₂, true) c₂) :
    (shortTurn l).leftovers plain c m =
        c :: (transfer l₂.sendPtr l₂.recvPtr).leftovers plain c₂ m ∧
      (shortTurn l).run plain c m =
        ((transfer l₂.sendPtr l₂.recvPtr).run plain c₂ m).map fun r => (.inr r.1, r.2) := by
  constructor
  · simp only [shortTurn, Prog.leftovers_bind, bindSegment_leftovers, bindSegment_run hstart,
      readSize_leftovers, readSize_run, hcount, (hsend m).1, (hsend m).2, (hrecv m).1, (hrecv m).2,
      Option.map_some, Option.getD_some, List.nil_append, Bool.false_eq_true, if_false, if_true]
    rw [List.singleton_append]
    cases (transfer l₂.sendPtr l₂.recvPtr).run plain c₂ m with
    | none => rw [Option.map_none, Option.getD_none, List.append_nil]
    | some r => rw [Option.map_some, Option.getD_some, Prog.leftovers_pure, List.append_nil]
  · simp only [shortTurn, Prog.run_bind, bindSegment_run hstart, readSize_run, hcount, (hsend m).2,
      (hrecv m).2, Option.bind_some, Bool.false_eq_true, if_false, if_true]
    cases (transfer l₂.sendPtr l₂.recvPtr).run plain c₂ m with
    | none => rfl
    | some r => rfl

/-- An index, as seen from the next segment if it is not in this one. -/
def past (count i : ℕ) : ℕ := if i < count then i else i - count

/-- A first turn that does not find both accounts. -/
theorem shortTurn_past {sendId recvId start : ℕ} (hstart : start ≠ 0)
    (hcount : (m (AccountSegment.ofAddress start).count).toNat = count)
    (hnot : ¬ (sendId < count ∧ recvId < count)) :
    (shortTurn ⟨start, sendId, recvId, 0, 0⟩).leftovers plain (.short sendId recvId) m =
        [.short sendId recvId, .short (past count sendId) (past count recvId)] ∧
      ∃ l' : ShortLocals, l'.sendId = past count sendId ∧ l'.recvId = past count recvId ∧
        l'.start = (m (AccountSegment.ofAddress start).next).toNat ∧
        (count = 0 → l'.sendPtr = 0 ∧ l'.recvPtr = 0) ∧
        (shortTurn ⟨start, sendId, recvId, 0, 0⟩).run plain (.short sendId recvId) m =
          some (if l'.start = 0 then .inr false else .inl l',
            .short (past count sendId) (past count recvId), m) := by
  let l : ShortLocals := ⟨start, sendId, recvId, 0, 0⟩
  rcases Nat.lt_or_ge sendId count with hs | hs
  · have hr := Nat.not_lt.mp fun hr => hnot ⟨hs, hr⟩
    rw [past, past, if_pos hs, if_neg (Nat.not_lt.mpr hr)]
    obtain ⟨hleft, hrun⟩ :=
      shortTurn_on (l := l) hstart hcount (findSend_lt rfl hs) (findRecv_ge rfl hr)
    exact ⟨hleft, ⟨_, sendId, recvId - count, _, 0⟩, rfl, rfl, rfl,
      fun h => absurd (h ▸ hs) (Nat.not_lt_zero _), hrun⟩
  · rw [past, if_neg (Nat.not_lt.mpr hs)]
    rcases Nat.lt_or_ge recvId count with hr | hr
    · rw [past, if_pos hr]
      obtain ⟨hleft, hrun⟩ :=
        shortTurn_on (l := l) hstart hcount (findSend_ge rfl hs) (findRecv_lt rfl hr)
      exact ⟨hleft, ⟨_, sendId - count, recvId, 0, _⟩, rfl, rfl, rfl,
        fun h => absurd (h ▸ hr) (Nat.not_lt_zero _), hrun⟩
    · rw [past, if_neg (Nat.not_lt.mpr hr)]
      obtain ⟨hleft, hrun⟩ :=
        shortTurn_on (l := l) hstart hcount (findSend_ge rfl hs) (findRecv_ge rfl hr)
      exact ⟨hleft, ⟨_, sendId - count, recvId - count, 0, 0⟩, rfl, rfl, rfl,
        fun _ => ⟨rfl, rfl⟩, hrun⟩

end

/-! ## What the whole attempt leaves

Over the whole attempt the ids only get smaller. They are what they were if no turn before the
abort has counted anything down. -/

section

variable {bank : WorkloadBank} {m : ℕ → ℤ} {l : ShortLocals} {c : Tx} {sendId recvId count : ℕ}

theorem turn_short_leftovers :
    (turn bank (.short l)).leftovers plain c m = (shortTurn l).leftovers plain c m := by
  rw [turn, Prog.leftovers_bind]
  cases (shortTurn l).run plain c m with
  | none => rw [Option.map_none, Option.getD_none, List.append_nil]
  | some r => rw [Option.map_some, Option.getD_some, Prog.leftovers_pure, List.append_nil]

theorem turn_short_run :
    (turn bank (.short l)).run plain c m =
      ((shortTurn l).run plain c m).map fun r => (r.1.map .short some, r.2) := by
  rw [turn, Prog.run_bind]
  cases (shortTurn l).run plain c m with
  | none => rfl
  | some r => rfl

/-- The ids of the transaction are no larger than these. -/
def IdsLe (sendId recvId : ℕ) (c : Tx) : Prop :=
  ∃ i j, c = .short i j ∧ i ≤ sendId ∧ j ≤ recvId

theorem keeps_find {segment : AccountSegment} (hs : l.sendId ≤ sendId) (hr : l.recvId ≤ recvId) :
    (findSend segment count l).Keeps (IdsLe sendId recvId)
        (fun p => p.1.sendId ≤ sendId ∧ p.1.recvId ≤ recvId) ∧
      (findRecv segment count l).Keeps (IdsLe sendId recvId)
        fun p => p.1.sendId ≤ sendId ∧ p.1.recvId ≤ recvId := by
  have hs' : l.sendId - count ≤ sendId := (Nat.sub_le ..).trans hs
  have hr' : l.recvId - count ≤ recvId := (Nat.sub_le ..).trans hr
  rw [findSend, findRecv]
  constructor
  · split
    · split
      · exact ⟨hs, hr⟩
      · exact ⟨⟨_, _, rfl, hs', hr⟩, hs', hr⟩
    · exact ⟨hs, hr⟩
  · split
    · split
      · exact ⟨hs, hr⟩
      · exact ⟨⟨_, _, rfl, hs, hr'⟩, hs, hr'⟩
    · exact ⟨hs, hr⟩

/-- A turn of the loop makes the ids smaller, or leaves them. -/
theorem keeps_turn (hs : l.sendId ≤ sendId) (hr : l.recvId ≤ recvId) :
    (turn bank (.short l)).Keeps (IdsLe sendId recvId)
      (Sum.elim (fun l' => ∃ l, l' = .short l ∧ l.sendId ≤ sendId ∧ l.recvId ≤ recvId)
        fun _ => True) := by
  have htransfer : ∀ l' : ShortLocals,
      (do return .inr (← transfer l'.sendPtr l'.recvPtr) : Prog Tx ℤ (ShortLocals ⊕ Bool)).Keeps
        (IdsLe sendId recvId)
        (Sum.elim (fun l => l.sendId ≤ sendId ∧ l.recvId ≤ recvId) fun _ => True) := fun l' =>
    Prog.keeps_bind (Prog.keeps_of_saves saves_transfer) fun _ _ => trivial
  have hturn : (shortTurn l).Keeps (IdsLe sendId recvId)
      (Sum.elim (fun l => l.sendId ≤ sendId ∧ l.recvId ≤ recvId) fun _ => True) := by
    refine Prog.keeps_bind (Prog.keeps_of_saves saves_bindSegment) fun segment _ =>
      Prog.keeps_bind (Prog.keeps_of_saves saves_readSize) fun count _ =>
      Prog.keeps_bind (keeps_find hs hr).1 fun p hp => ?_
    dsimp only
    split
    · exact htransfer _
    · apply Prog.keeps_bind (keeps_find hp.1 hp.2).2
      intro p hp
      split
      · exact htransfer _
      · apply Prog.keeps_bind (Prog.keeps_of_saves saves_readSize)
        intro start _
        split
        · trivial
        · exact hp
  apply Prog.keeps_bind hturn
  intro r hr
  cases r with
  | inl l' => exact ⟨l', rfl, hr⟩
  | inr b => trivial

theorem max_past_lt (hpos : count ≠ 0) (hnot : ¬ (sendId < count ∧ recvId < count)) :
    max (past count sendId) (past count recvId) < max sendId recvId := by
  simp only [past]
  split_ifs <;> omega

theorem firstCount_of_pos {start : ℕ} (k : ℕ)
    (hcount : (m (AccountSegment.ofAddress start).count).toNat = count) (hpos : count ≠ 0) :
    firstCount m (k + 1) start = count := by
  cases k with
  | zero => exact hcount
  | succ k =>
    rw [firstCount, hcount, if_neg hpos]

/-- A turn that finds both accounts assigns nothing. -/
theorem shortTurn_both {start : ℕ} (hstart : start ≠ 0)
    (hcount : (m (AccountSegment.ofAddress start).count).toNat = count) (hs : sendId < count)
    (hr : recvId < count) :
    (∀ c ∈ (shortTurn ⟨start, sendId, recvId, 0, 0⟩).leftovers plain (.short sendId recvId) m,
      c = .short sendId recvId) ∧
    (shortTurn ⟨start, sendId, recvId, 0, 0⟩).run plain (.short sendId recvId) m =
      ((transfer ((AccountSegment.ofAddress start).account sendId)
        ((AccountSegment.ofAddress start).account recvId)).run plain (.short sendId recvId) m).map
          fun r => (.inr r.1, r.2) := by
  let l : ShortLocals := ⟨start, sendId, recvId, 0, 0⟩
  have hptr : ((AccountSegment.ofAddress start).account sendId != 0) = true := by
    rw [bne_iff_ne]
    show start + 8 + 8 + 8 + sendId * 8 ≠ 0
    omega
  have hrecv : Finds
      (findRecv (.ofAddress start) count
        { l with sendPtr := (AccountSegment.ofAddress start).account sendId })
      (.short sendId recvId) (_, (AccountSegment.ofAddress start).account sendId != 0)
      (.short sendId recvId) := findRecv_lt rfl hr
  rw [hptr] at hrecv
  obtain ⟨hleft, hrun⟩ := shortTurn_found (l := l) hstart hcount (findSend_lt rfl hs) hrecv
  refine ⟨?_, hrun⟩
  show ∀ c ∈ (shortTurn l).leftovers plain (.short sendId recvId) m, c = .short sendId recvId
  rw [hleft]
  exact List.forall_mem_cons.mpr ⟨rfl, (Prog.keeps_of_saves saves_transfer).leftovers rfl⟩

/-- What an attempt that comes past a segment leaves from there on are smaller ids. -/
theorem leftovers_past {n k : ℕ} {l : ShortLocals} {tx : Tx} (hsend : l.sendId = past count sendId)
    (hrecv : l.recvId = past count recvId)
    (hk : (.short (past count sendId) (past count recvId) :: if l.start = 0 then []
      else Prog.loopLeftovers plain (turn bank) n (.short l)
        (.short (past count sendId) (past count recvId)) m)[k]? = some tx) :
    IdsLe (past count sendId) (past count recvId) tx := by
  obtain _ | k := k
  · exact ⟨_, _, (Option.some.inj hk).symm, Nat.le_refl _, Nat.le_refl _⟩
  · by_cases hend : l.start = 0
    · rw [if_pos hend] at hk
      cases hk
    · rw [if_neg hend] at hk
      refine Prog.loopLeftovers_of_keeps (P := IdsLe (past count sendId) (past count recvId))
        (I := fun L => ∃ l, L = .short l ∧ l.sendId ≤ past count sendId ∧
          l.recvId ≤ past count recvId) ?_ ⟨l, rfl, hsend.le, hrecv.le⟩
        ⟨_, _, rfl, Nat.le_refl _, Nat.le_refl _⟩ tx (List.mem_of_getElem? hk)
      rintro _ ⟨l, rfl, hs, hr⟩
      exact keeps_turn hs hr

/-- An attempt stops early if it stops in a segment that has both accounts. -/
theorem stopsEarly_of_lt {k start : ℕ}
    (hcount : (m (AccountSegment.ofAddress start).count).toNat = count) (hs : sendId < count)
    (hr : recvId < count) : StopsEarly m k start sendId recvId := by
  cases k with
  | zero => exact .inl rfl
  | succ k =>
    rw [StopsEarly, firstCount_of_pos k hcount (by omega)]
    exact .inr (max_lt hs hr)

/-- What an attempt that aborts leaves: the ids it found, if it stopped early; else the larger
of them is smaller than before. -/
theorem loopLeftovers_short {n k start : ℕ} {tx : Tx} (hstart : start ≠ 0)
    (hk : (Prog.loopLeftovers plain (turn bank) n (.short ⟨start, sendId, recvId, 0, 0⟩)
      (.short sendId recvId) m)[k]? = some tx) :
    if StopsEarly m k start sendId recvId then tx = .short sendId recvId
    else ∃ i j, tx = .short i j ∧ max i j < max sendId recvId := by
  induction n generalizing k start with
  | zero => cases hk
  | succ n ih =>
    rw [Prog.loopLeftovers, turn_short_leftovers, turn_short_run] at hk
    obtain ⟨count, hcount⟩ : ∃ count, (m (AccountSegment.ofAddress start).count).toNat = count :=
      ⟨_, rfl⟩
    by_cases hboth : sendId < count ∧ recvId < count
    · -- whatever operation of the transfer fails
      obtain ⟨hleft, hrun⟩ := shortTurn_both hstart hcount hboth.1 hboth.2
      rw [if_pos (stopsEarly_of_lt hcount hboth.1 hboth.2)]
      rcases List.mem_append.mp (List.mem_of_getElem? hk) with hmem | hmem
      · exact hleft tx hmem
      · rw [hrun] at hmem
        generalize (transfer _ _).run plain _ m = r at hmem
        cases r with
        | none => exact absurd hmem List.not_mem_nil
        | some r => exact absurd hmem List.not_mem_nil
    · obtain ⟨hleft, l', hsend, hrecv, hnext, hptr, hrun⟩ := shortTurn_past hstart hcount hboth
      have hk : ([.short sendId recvId, .short (past count sendId) (past count recvId)] ++
          if l'.start = 0 then []
          else Prog.loopLeftovers plain (turn bank) n (.short l')
            (.short (past count sendId) (past count recvId)) m)[k]? = some tx := by
        rw [hleft, hrun] at hk
        split
        · rename_i hend
          rwa [if_pos hend] at hk
        · rename_i hend
          rwa [if_neg hend] at hk
      by_cases hpos : count = 0
      · -- nothing is subtracted in a segment without accounts
        have hpast : ∀ i, past count i = i := by
          intro i
          rw [past, hpos, if_neg (Nat.not_lt_zero i)]
          rfl
        simp only [hpast] at hk hsend hrecv
        rw [hpos] at hcount
        obtain _ | _ | k := k
        · rw [if_pos (.inl rfl)]
          exact (Option.some.inj hk).symm
        · rw [if_pos (.inl hcount)]
          exact (Option.some.inj hk).symm
        · by_cases hend : l'.start = 0
          · rw [if_pos hend] at hk
            cases hk
          · rw [if_neg hend] at hk
            obtain ⟨start', i, j, sp, rp⟩ := l'
            obtain ⟨rfl, rfl⟩ := hptr hpos
            obtain rfl : i = sendId := hsend
            obtain rfl : j = recvId := hrecv
            obtain rfl : start' = _ := hnext
            have hsame : StopsEarly m (k + 1 + 1) start i j ↔
                StopsEarly m k (m (AccountSegment.ofAddress start).next).toNat i j := by
              rw [StopsEarly, StopsEarly, firstCount, if_pos hcount]
            simp only [hsame]
            exact ih hend hk
      · obtain _ | k := k
        · rw [if_pos (.inl rfl)]
          exact (Option.some.inj hk).symm
        · -- from here on the ids only get smaller
          have hlt := max_past_lt hpos hboth
          have hstops : ¬ StopsEarly m (k + 1) start sendId recvId := by
            rw [StopsEarly, firstCount_of_pos k hcount hpos]
            omega
          rw [if_neg hstops]
          obtain ⟨i, j, rfl, hi, hj⟩ := leftovers_past hsend hrecv hk
          exact ⟨i, j, rfl, (max_le_max hi hj).trans_lt hlt⟩
/-- What the attempts leave: the ids, if all of them stopped early; else smaller ones. -/
theorem abortedAttempts_short {n : ℕ} {attempts : List ((ℕ → ℤ) × ℕ)} {tx : Tx}
    (hstart : bank.start ≠ 0)
    (ha : abortedAttempts bank plain n attempts (.short sendId recvId) = some tx) :
    ∃ i j, tx = .short i j ∧ max i j ≤ max sendId recvId ∧
      ((∀ p ∈ attempts, StopsEarly p.1 p.2 bank.start sendId recvId) → i = sendId ∧ j = recvId) ∧
      ((∃ p ∈ attempts, ¬ StopsEarly p.1 p.2 bank.start sendId recvId) →
        max i j < max sendId recvId) := by
  induction attempts generalizing sendId recvId with
  | nil =>
    refine ⟨sendId, recvId, (Option.some.inj ha).symm, Nat.le_refl _, fun _ => ⟨rfl, rfl⟩, ?_⟩
    rintro ⟨p, hp, -⟩
    exact absurd hp List.not_mem_nil
  | cons p attempts ih =>
    obtain ⟨tx₁, ha₁, ha⟩ := Option.bind_eq_some_iff.mp ha
    have htx₁ := loopLeftovers_short hstart ha₁
    by_cases hstop : StopsEarly p.1 p.2 bank.start sendId recvId
    · rw [if_pos hstop] at htx₁
      subst htx₁
      obtain ⟨i, j, rfl, hle, hsame, hless⟩ := ih ha
      refine ⟨i, j, rfl, hle, fun hall => hsame fun q hq => hall q (List.mem_cons_of_mem _ hq), ?_⟩
      rintro ⟨q, hq, hnot⟩
      rcases List.mem_cons.mp hq with rfl | hq
      · exact absurd hstop hnot
      · exact hless ⟨q, hq, hnot⟩
    · rw [if_neg hstop] at htx₁
      obtain ⟨i₁, j₁, rfl, hlt⟩ := htx₁
      obtain ⟨i, j, rfl, hle, -, -⟩ := ih ha
      exact ⟨i, j, rfl, (hle.trans_lt hlt).le,
        fun hall => absurd (hall p List.mem_cons_self) hstop, fun _ => hle.trans_lt hlt⟩

end

/-! ## The attempt that commits

The attempt that commits does a transfer between the accounts of the ids that it finds
captured. If the attempts before it have changed these, they are other accounts than those
asked for. -/

/-- The memory holds a list of accounts. -/
def AccountList (bank : WorkloadBank) (m : ℕ → ℤ) : Prop :=
  ∃ blocks, Linked m bank.start blocks 0 ∧ Fits blocks ∧ (cells blocks).Nodup

section

variable {bank : WorkloadBank} {m : ℕ → ℤ} {sendId recvId : ℕ}

/-- On a list of accounts `short_tx` comes to an end. -/
theorem short_total (hstart : bank.start ≠ 0) (hm : AccountList bank m) (sendId recvId : ℕ) :
    ∃ k r, ∀ n, k < n → runTx bank plain n (.short sendId recvId) m = some r := by
  obtain ⟨blocks, hlinked, hfits, hnodup⟩ := hm
  have hh : plain.Holds some (fun _ _ _ => False) (cells blocks) [] m m :=
    ⟨hnodup.map (Option.some_injective _), fun _ _ => rfl, fun _ h => absurd h List.not_mem_nil⟩
  have hbody : ∀ k L c m', (m' = m ∧ ∃ l, L = .short l ∧ c = .short l.sendId l.recvId ∧
      ShortInv m blocks k l) →
      (turn bank L).wp plain (Sum.elim (fun L' c' m'' => ∃ j < k, m'' = m ∧ ∃ l, L' = .short l ∧
        c' = .short l.sendId l.recvId ∧ ShortInv m blocks j l) fun _ _ _ => True) c m' := by
    rintro k _ _ _ ⟨rfl, l, rfl, rfl, hinv⟩
    refine Prog.wp_bind.mpr
      (Prog.wp_mono (shortTurn_wp hh (Memory.ofPlaces_lawful _) hfits hinv rfl) ?_)
    intro r c' m' h
    rcases r with l' | r
    · obtain ⟨rfl, rfl, j, hj, hinv'⟩ := h
      exact ⟨j, hj, rfl, l', rfl, rfl, hinv'⟩
    · trivial
  have hvisits : ShortInv m blocks blocks.length ⟨bank.start, sendId, recvId, 0, 0⟩ := by
    cases blocks with
    | nil => exact absurd hlinked hstart
    | cons b blocks => exact ⟨⟨[], b, blocks, rfl, rfl, hlinked⟩, .inl rfl, .inl rfl⟩
  obtain ⟨r, c', m', hloop, -⟩ := Prog.loop_total hbody ⟨rfl, _, rfl, rfl, hvisits⟩
  exact ⟨blocks.length, (r, c', m'), hloop⟩

/-- A list of one segment, with all accounts empty. -/
def oneSegment (bank : WorkloadBank) (count : ℕ) : ℕ → ℤ := fun a =>
  if a = bank.start then count else 0

theorem accountList_oneSegment (hstart : bank.start ≠ 0) (count : ℕ) :
    AccountList bank (oneSegment bank count) := by
  refine ⟨[⟨bank.start, count, count⟩], ⟨rfl, hstart, if_pos rfl, 0, if_neg ?_, rfl⟩,
    fun b hb => (List.mem_singleton.mp hb ▸ Nat.le_refl _), ?_⟩
  · rw [Block.segment_next]
    exact Nat.ne_of_gt (Nat.lt_add_of_pos_right (by decide))
  · rw [cells_cons, Block.cells_eq]
    refine List.Nodup.append (List.Nodup.map ?_ List.nodup_range) List.nodup_nil
      (List.disjoint_nil_right _)
    intro i j hij
    simpa [WORD_SIZE] using hij

theorem transfer_empty {p q : ℕ} {c : Tx} (hp : m p = 0) :
    (transfer p q).run plain c m = some (true, c, m) := by
  have hread : (Shared.read p).run plain c m = some (m p, c, m) := rfl
  rw [transfer, Prog.run_bind, hread, Option.bind_some, hp, if_neg (lt_irrefl _)]
  rfl

/-- `short_tx` tells whether both accounts exist. -/
theorem short_oneSegment (hstart : bank.start ≠ 0) {n count : ℕ} {r : Option Bool} {c : Tx}
    {m' : ℕ → ℤ}
    (hr : runTx bank plain n (.short sendId recvId) (oneSegment bank count) = some (r, c, m')) :
    r = some (decide (sendId < count ∧ recvId < count)) := by
  have hcount : ((oneSegment bank count) (AccountSegment.ofAddress bank.start).count).toNat =
      count := by
    have hself : (AccountSegment.ofAddress bank.start).count = bank.start := rfl
    rw [hself, oneSegment, if_pos rfl, Int.toNat_natCast]
  cases n with
  | zero => cases hr
  | succ n =>
    rw [runTx, Prog.loop, enter, turn_short_run] at hr
    by_cases hboth : sendId < count ∧ recvId < count
    · rw [(shortTurn_both hstart hcount hboth.1 hboth.2).2] at hr
      have hsend :
          oneSegment bank count ((AccountSegment.ofAddress bank.start).account sendId) = 0 := by
        apply if_neg
        show bank.start + 8 + 8 + 8 + sendId * 8 ≠ bank.start
        omega
      rw [transfer_empty hsend] at hr
      rw [decide_eq_true hboth]
      exact (Prod.mk.inj (Option.some.inj hr)).1.symm
    · obtain ⟨-, l', -, -, hnext, -, hrun⟩ := shortTurn_past hstart hcount hboth
      have hend : l'.start = 0 := by
        have hnone : oneSegment bank count (AccountSegment.ofAddress bank.start).next = 0 := by
          apply if_neg
          show bank.start + 8 ≠ bank.start
          omega
        rw [hnext, hnone]
        rfl
      rw [hrun, if_pos hend] at hr
      rw [decide_eq_false hboth]
      exact (Prod.mk.inj (Option.some.inj hr)).1.symm

/-- The attempt that commits makes the transfer asked for, whatever the list it sees, if and
only if the attempts before it stopped early. -/
theorem retries_keep_accounts_iff (hstart : bank.start ≠ 0) {n : ℕ}
    {attempts : List ((ℕ → ℤ) × ℕ)} {tx : Tx}
    (ha : abortedAttempts bank plain n attempts (.short sendId recvId) = some tx) :
    (∀ m, AccountList bank m → ∃ n r c c' m',
      transactional bank plain n attempts (.short sendId recvId) m = some (r, c, m') ∧
        runTx bank plain n (.short sendId recvId) m = some (r, c', m')) ↔
    ∀ p ∈ attempts, StopsEarly p.1 p.2 bank.start sendId recvId := by
  obtain ⟨i, j, rfl, -, hsame, hless⟩ := abortedAttempts_short hstart ha
  constructor
  · intro hall
    by_contra hnot
    push Not at hnot
    have hlt := hless hnot
    -- a list on which the accounts asked for do not exist, but those tried do
    obtain ⟨k, r, c, c', m', htrans, hrun⟩ :=
      hall _ (accountList_oneSegment hstart (max i j + 1))
    rw [transactional_eq] at htrans
    obtain ⟨tx, ha', htrans⟩ := Option.bind_eq_some_iff.mp htrans
    have htx : some tx = some (.short i j) :=
      (abortedAttempts_mono bank plain (le_max_right n k) ha').symm.trans
        (abortedAttempts_mono bank plain (le_max_left n k) ha)
    obtain rfl := Option.some.inj htx
    have hr := short_oneSegment hstart htrans
    rw [short_oneSegment hstart hrun, Option.some.injEq, decide_eq_decide] at hr
    omega
  · intro hall m hm
    obtain ⟨rfl, rfl⟩ := hsame hall
    obtain ⟨k, ⟨r, c, m'⟩, hrun⟩ := short_total hstart hm i j
    have hrun := hrun (max n (k + 1)) (by omega)
    refine ⟨max n (k + 1), r, c, c, m', ?_, hrun⟩
    rw [transactional_eq, abortedAttempts_mono bank plain (le_max_left ..) ha]
    exact hrun

end

/-- An attempt that aborts in the middle of its transfer changes nothing for the next one. -/
theorem retries_keep_accounts_transfer :
    abortedAttempts ⟨8, 4, 5⟩ plain 1 [(oneSegment ⟨8, 4, 5⟩ 4, 1)] (.short 2 3) =
        some (.short 2 3) ∧
      ∀ m, AccountList ⟨8, 4, 5⟩ m → ∃ n r c c' m',
        transactional ⟨8, 4, 5⟩ plain n [(oneSegment ⟨8, 4, 5⟩ 4, 1)] (.short 2 3) m =
            some (r, c, m') ∧
          runTx ⟨8, 4, 5⟩ plain n (.short 2 3) m = some (r, c', m') := by
  have ha : abortedAttempts ⟨8, 4, 5⟩ plain 1 [(oneSegment ⟨8, 4, 5⟩ 4, 1)] (.short 2 3) =
      some (.short 2 3) := by decide +kernel
  exact ⟨ha, (retries_keep_accounts_iff (by decide) ha).mpr (by decide +kernel)⟩

/-- Two segments of two accounts, with 5 in each account. -/
def twoSegments : ℕ → ℤ := fun a =>
  if a = 8 ∨ a = 100 then 2 else if a = 16 then 100 else if a ∈ [32, 40, 124, 132] then 5 else 0

theorem accountList_twoSegments : AccountList ⟨8, 2, 5⟩ twoSegments :=
  ⟨[⟨8, 2, 2⟩, ⟨100, 2, 2⟩],
    ⟨rfl, by decide, rfl, 100, rfl, rfl, by decide, rfl, 0, rfl, rfl⟩,
    fun b hb => by rcases List.mem_pair.mp hb with rfl | rfl <;> exact Nat.le_refl _,
    by decide⟩

/-- **Counterexample.** An attempt to transfer from account 2 to account 3 aborts at its second
read, of the pointer to the segment where they are. The next one transfers from account 0 to
account 1. -/
theorem retry_takes_other_accounts :
    ¬ ∀ (bank : WorkloadBank) (attempts : List ((ℕ → ℤ) × ℕ)) (sendId recvId n : ℕ) (tx : Tx)
        (m : ℕ → ℤ),
      bank.start ≠ 0 → (∀ p ∈ attempts, AccountList bank p.1) → AccountList bank m →
      abortedAttempts bank plain n attempts (.short sendId recvId) = some tx →
      ∃ n r c c' m',
        transactional bank plain n attempts (.short sendId recvId) m = some (r, c, m') ∧
          runTx bank plain n (.short sendId recvId) m = some (r, c', m') := by
  intro hall
  obtain ⟨n, r, c, c', m', htrans, hrun⟩ := hall ⟨8, 2, 5⟩ [(twoSegments, 1)] 2 3 1 (.short 0 1)
    twoSegments (by decide) (fun p hp => List.mem_singleton.mp hp ▸ accountList_twoSegments)
    accountList_twoSegments (by decide +kernel)
  -- what was left in account 0, whatever the number of turns allowed
  have htrans₁ : (transactional ⟨8, 2, 5⟩ plain 2 [(twoSegments, 1)] (.short 2 3) twoSegments).map
      (fun r => r.2.2 32) = some 4 := by decide +kernel
  have hrun₁ : (runTx ⟨8, 2, 5⟩ plain 2 (.short 2 3) twoSegments).map
      (fun r => r.2.2 32) = some 5 := by decide +kernel
  obtain ⟨r₁, htrans₁, h₁⟩ := Option.map_eq_some_iff.mp htrans₁
  obtain ⟨r₂, hrun₁, h₂⟩ := Option.map_eq_some_iff.mp hrun₁
  have heq₁ := (transactional_mono _ _ (le_max_left n 2) htrans).symm.trans
    (transactional_mono _ _ (le_max_right n 2) htrans₁)
  have heq₂ := (Prog.loop_mono (le_max_left n 2) hrun).symm.trans
    (Prog.loop_mono (le_max_right n 2) hrun₁)
  rw [← Option.some.inj heq₁] at h₁
  rw [← Option.some.inj heq₂] at h₂
  exact absurd (h₁.symm.trans h₂) (by decide)

end DualStm
