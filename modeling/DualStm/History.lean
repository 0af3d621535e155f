import DualStm.System

/-!
# Reading a history

What the theorems say about a run they say about its history, the list of its
events, newest first. Here are the questions they ask: which transactions began
and left, what a transaction last wrote to a word, what stands in a word once
the epochs so far have been committed.

All of them are plain recursions over the list, so that a step of the machine
changes each answer by one equation.
-/

namespace DualStm

variable {τ W : Type}

namespace Event

/-- The transaction that got its id in the step, if one did. -/
def begun? : Event τ W → Option Txn
  | .began _ T => some T
  | _ => none

/-- The transaction that left, and whether its leave committed the epoch. -/
def left? : Event τ W → Option (Txn × Bool)
  | .ended T last => some (T, last)
  | .aborted T last => some (T, last)
  | _ => none

end Event

/-! ## Who began, who left

A transaction is in the history from the step in which it takes its id to the one in which it
leaves, through `tm_end` or through an abort. -/

/-- The transactions that got an id, latest first. -/
def begun (h : List (Event τ W)) : List Txn := h.filterMap Event.begun?

/-- The transaction has left, through `tm_end` or through an abort. -/
def HasLeft (h : List (Event τ W)) (T : Txn) : Prop := ∃ e ∈ h, ∃ b, e.left? = some (T, b)

/-- The transaction left through `tm_end`. -/
def Ended (h : List (Event τ W)) (T : Txn) : Prop := ∃ b, .ended T b ∈ h

/-- The transaction left through its abort. -/
def Aborted (h : List (Event τ W)) (T : Txn) : Prop := ∃ b, .aborted T b ∈ h

section

variable {h : List (Event τ W)} {e : Event τ W} {t : τ} {T : Txn}

theorem mem_begun (hb : .began t T ∈ h) : T ∈ begun h := List.mem_filterMap.mpr ⟨_, hb, rfl⟩

theorem exists_began (hb : T ∈ begun h) : ∃ t, .began t T ∈ h := by
  obtain ⟨e, he, hT⟩ := List.mem_filterMap.mp hb
  unfold Event.begun? at hT
  split at hT
  · obtain rfl := Option.some.inj hT
    exact ⟨_, he⟩
  · cases hT

theorem begun_cons_of_none (hb : e.begun? = none) : begun (e :: h) = begun h :=
  List.filterMap_cons_none hb

theorem begun_subset_cons (hb : T ∈ begun h) : T ∈ begun (e :: h) := by
  obtain ⟨t, ht⟩ := exists_began hb
  exact mem_begun (List.mem_cons_of_mem _ ht)

theorem began_mem_cons_of_none (hb : e.begun? = none) :
    .began t T ∈ e :: h ↔ .began t T ∈ h := by
  rw [List.mem_cons, or_iff_right]
  rintro rfl
  cases hb

theorem hasLeft_cons :
    HasLeft (e :: h) T ↔ (∃ b, e.left? = some (T, b)) ∨ HasLeft h T := by
  simp [HasLeft]

theorem hasLeft_cons_of_none (hl : e.left? = none) : HasLeft (e :: h) T ↔ HasLeft h T := by
  simp [hasLeft_cons, hl]

/-- A transaction leaves through `tm_end` or through an abort. -/
theorem hasLeft_iff : HasLeft h T ↔ Ended h T ∨ Aborted h T := by
  constructor
  · rintro ⟨e, he, b, hl⟩
    unfold Event.left? at hl
    split at hl
    · obtain ⟨rfl, rfl⟩ := Prod.mk.inj (Option.some.inj hl)
      exact .inl ⟨_, he⟩
    · obtain ⟨rfl, rfl⟩ := Prod.mk.inj (Option.some.inj hl)
      exact .inr ⟨_, he⟩
    · cases hl
  · rintro (⟨b, he⟩ | ⟨b, he⟩)
    · exact ⟨_, he, b, rfl⟩
    · exact ⟨_, he, b, rfl⟩

theorem ended_cons_of_none (hl : e.left? = none) : Ended (e :: h) T ↔ Ended h T := by
  apply exists_congr
  intro b
  rw [List.mem_cons, or_iff_right]
  rintro rfl
  cases hl

theorem aborted_cons_of_none (hl : e.left? = none) : Aborted (e :: h) T ↔ Aborted h T := by
  apply exists_congr
  intro b
  rw [List.mem_cons, or_iff_right]
  rintro rfl
  cases hl

end

section

variable [DecidableEq τ]

/-- The flag a thread passed to its last `tm_begin`. -/
def lastCalled (t : τ) : List (Event τ W) → Option Bool
  | [] => none
  | .called u isRo :: h => if u = t then some isRo else lastCalled t h
  | _ :: h => lastCalled t h

/-- The flag with which a transaction was begun. -/
def flagOf (T : Txn) : List (Event τ W) → Option Bool
  | [] => none
  | .began t U :: h => if U = T then lastCalled t h else flagOf T h
  | _ :: h => flagOf T h

/-- What had happened when a thread last called `tm_begin`. -/
def beforeCall (t : τ) : List (Event τ W) → List (Event τ W)
  | [] => []
  | .called u _ :: h => if u = t then h else beforeCall t h
  | _ :: h => beforeCall t h

theorem mem_of_beforeCall {t : τ} {h : List (Event τ W)} {e : Event τ W}
    (he : e ∈ beforeCall t h) : e ∈ h := by
  induction h with
  | nil => exact he
  | cons d h ih =>
    cases d with
    | called u isRo =>
      rw [beforeCall] at he
      split at he
      · exact List.mem_cons_of_mem _ he
      · exact List.mem_cons_of_mem _ (ih he)
    | _ => exact List.mem_cons_of_mem _ (ih he)

theorem flagOf_cons_of_none {h : List (Event τ W)} {e : Event τ W} (hb : e.begun? = none)
    (T : Txn) : flagOf T (e :: h) = flagOf T h := by
  cases e <;> first | rfl | cases hb

theorem flagOf_began_ne {h : List (Event τ W)} {t : τ} {T U : Txn} (hU : U ≠ T) :
    flagOf T (.began t U :: h) = flagOf T h := if_neg hU

/-- The flag of a transaction that has begun is settled. -/
theorem flagOf_append {g h : List (Event τ W)} {T : Txn} (hT : T ∈ begun h)
    (hn : (begun (g ++ h)).Nodup) : flagOf T (g ++ h) = flagOf T h := by
  induction g with
  | nil => rfl
  | cons e g ih =>
    rw [List.cons_append] at hn ⊢
    have hmem : T ∈ begun (g ++ h) := by
      obtain ⟨t, ht⟩ := exists_began hT
      exact mem_begun (List.mem_append_right _ ht)
    cases hb : e.begun? with
    | none =>
      rw [begun_cons_of_none hb] at hn
      rw [flagOf_cons_of_none hb, ih hn]
    | some U =>
      rw [begun, List.filterMap_cons_some hb, List.nodup_cons] at hn
      cases e with
      | began t V =>
        obtain rfl := Option.some.inj hb
        have hne : V ≠ T := by
          rintro rfl
          exact hn.1 hmem
        rw [flagOf_began_ne hne, ih hn.2]
      | _ => cases hb

end

/-! ## What was written

The writes of a transaction are those of its `wrote` events. What a word will get from it is
the last of them, unless an abort has released the word. -/

/-- What a transaction last wrote to a word. -/
def lastWrite (T : Txn) (ℓ : Loc) : List (Event τ W) → Option W
  | [] => none
  | .wrote U m v :: h => if U = T ∧ m = ℓ then some v else lastWrite T ℓ h
  | _ :: h => lastWrite T ℓ h

/-- The last value that a transaction wrote to a word, unless its abort has released the word
since. -/
def pending (T : Txn) (ℓ : Loc) : List (Event τ W) → Option W
  | [] => none
  | .wrote U m v :: h => if U = T ∧ m = ℓ then some v else pending T ℓ h
  | .released U m :: h => if U = T ∧ m = ℓ then none else pending T ℓ h
  | _ :: h => pending T ℓ h

/-- The event is neither a write nor the release of a word. -/
def Event.isPlain : Event τ W → Bool
  | .wrote _ _ _ => false
  | .released _ _ => false
  | _ => true

section

variable {h : List (Event τ W)} {e : Event τ W} {T U : Txn} {ℓ m : Loc} {v : W}

theorem lastWrite_cons_plain (he : e.isPlain = true) :
    lastWrite T ℓ (e :: h) = lastWrite T ℓ h := by
  cases e <;> first | rfl | cases he

theorem pending_cons_plain (he : e.isPlain = true) :
    pending T ℓ (e :: h) = pending T ℓ h := by
  cases e <;> first | rfl | cases he

theorem lastWrite_wrote : lastWrite T ℓ (.wrote T ℓ v :: h) = some v := if_pos ⟨rfl, rfl⟩

theorem lastWrite_wrote_ne (hne : ¬ (U = T ∧ m = ℓ)) :
    lastWrite T ℓ (.wrote U m v :: h) = lastWrite T ℓ h := if_neg hne

theorem pending_wrote : pending T ℓ (.wrote T ℓ v :: h) = some v := if_pos ⟨rfl, rfl⟩

theorem pending_wrote_ne (hne : ¬ (U = T ∧ m = ℓ)) :
    pending T ℓ (.wrote U m v :: h) = pending T ℓ h := if_neg hne

theorem pending_released : pending T ℓ (.released T ℓ :: h) = none := if_pos ⟨rfl, rfl⟩

theorem pending_released_ne (hne : ¬ (U = T ∧ m = ℓ)) :
    pending T ℓ (.released U m :: h) = pending T ℓ h := if_neg hne

theorem lastWrite_none_of_append {g' g : List (Event τ W)}
    (hn : lastWrite T ℓ (g' ++ g) = none) : lastWrite T ℓ g = none := by
  induction g' with
  | nil => exact hn
  | cons d g' ih =>
    apply ih
    cases d with
    | wrote U m w =>
      by_cases hU : U = T ∧ m = ℓ
      · rw [List.cons_append, lastWrite, if_pos hU] at hn
        cases hn
      · rwa [List.cons_append, lastWrite_wrote_ne hU] at hn
    | _ => exact hn

/-- A pending write is the last write of the transaction. -/
theorem lastWrite_of_pending (hp : pending T ℓ h = some v) : lastWrite T ℓ h = some v := by
  induction h with
  | nil => cases hp
  | cons e h ih =>
    cases e with
    | wrote U m w =>
      by_cases hU : U = T ∧ m = ℓ
      · rw [pending, if_pos hU] at hp
        rw [lastWrite, if_pos hU, hp]
      · rw [pending_wrote_ne hU] at hp
        rw [lastWrite_wrote_ne hU, ih hp]
    | released U m =>
      by_cases hU : U = T ∧ m = ℓ
      · rw [pending, if_pos hU] at hp
        cases hp
      · rw [pending_released_ne hU] at hp
        exact ih hp
    | _ => exact ih hp

/-- Until it releases something, all writes of a transaction are pending. -/
theorem pending_eq_lastWrite (hn : ∀ m, .released T m ∉ h) :
    pending T ℓ h = lastWrite T ℓ h := by
  induction h with
  | nil => rfl
  | cons e h ih =>
    have ih := ih fun m hm => hn m (List.mem_cons_of_mem _ hm)
    cases e with
    | wrote U m w => rw [pending, lastWrite, ih]
    | released U m =>
      rw [pending_released_ne]
      · exact ih
      · rintro ⟨rfl, -⟩
        exact hn m List.mem_cons_self
    | _ => exact ih

end

/-! ## What was committed

The committed value of a word is what the last commit left there: the write of the transaction
of that epoch that wrote it, or what was there before. -/

/-- The transactions of an epoch that left through `tm_end`, latest first. -/
def endedIn (ep : ℕ) (h : List (Event τ W)) : List Txn :=
  h.filterMap fun
    | .ended T _ => if T.epoch = ep then some T else none
    | _ => none

/-- What the transactions of an epoch that left through `tm_end` wrote to a word. -/
def committedWrite (ep : ℕ) (ℓ : Loc) (h : List (Event τ W)) : Option W :=
  (endedIn ep h).findSome? fun T => lastWrite T ℓ h

/-- The committed memory, started from `m₀`: the last leave of an epoch adds the
writes of the transactions that left through `tm_end`. -/
def committedMem (m₀ : Loc → W) : List (Event τ W) → Loc → W
  | [], ℓ => m₀ ℓ
  | e :: h, ℓ =>
    match e.left? with
    | some (T, true) => (committedWrite T.epoch ℓ (e :: h)).getD (committedMem m₀ h ℓ)
    | _ => committedMem m₀ h ℓ

/-- The committed memory an epoch started from. -/
def epochMem (m₀ : Loc → W) (ep : ℕ) : List (Event τ W) → Loc → W
  | [] => m₀
  | e :: h =>
    match e.left? with
    | some (T, true) =>
      if T.epoch + 1 = ep then committedMem m₀ (e :: h) else epochMem m₀ ep h
    | _ => epochMem m₀ ep h

/-- The event is the leave that commits an epoch. -/
def Event.closes (e : Event τ W) : Prop := ∃ T, e.left? = some (T, true)

section

variable {h : List (Event τ W)} {e : Event τ W} {T : Txn} {ℓ : Loc} {m₀ : Loc → W} {v : W}
  {ep : ℕ}

theorem mem_endedIn : T ∈ endedIn ep h ↔ Ended h T ∧ T.epoch = ep := by
  constructor
  · intro hT
    obtain ⟨e, he, hT⟩ := List.mem_filterMap.mp hT
    cases e with
    | ended U b =>
      simp only [Option.ite_none_right_eq_some, Option.some.injEq] at hT
      obtain ⟨hep, rfl⟩ := hT
      exact ⟨⟨b, he⟩, hep⟩
    | _ => cases hT
  · rintro ⟨⟨b, he⟩, hep⟩
    exact List.mem_filterMap.mpr ⟨_, he, if_pos hep⟩

/-- The one value that the transactions of the epoch wrote to a word. -/
theorem committedWrite_eq_some (hT : Ended h T) (hep : T.epoch = ep)
    (hv : lastWrite T ℓ h = some v)
    (huniq : ∀ {U w}, Ended h U → U.epoch = ep → lastWrite U ℓ h = some w → w = v) :
    committedWrite ep ℓ h = some v := by
  rcases hw : committedWrite ep ℓ h with _ | w
  · have := List.findSome?_eq_none_iff.mp hw T (mem_endedIn.mpr ⟨hT, hep⟩)
    rw [hv] at this
    cases this
  · obtain ⟨U, hU, hUw⟩ := List.exists_of_findSome?_eq_some hw
    obtain ⟨hU, hUep⟩ := mem_endedIn.mp hU
    rw [huniq hU hUep hUw]

/-- A value the epoch commits was written by one that left through `tm_end`. -/
theorem exists_of_committedWrite (hv : committedWrite ep ℓ h = some v) :
    ∃ T, Ended h T ∧ T.epoch = ep ∧ lastWrite T ℓ h = some v := by
  obtain ⟨T, hT, hTv⟩ := List.exists_of_findSome?_eq_some hv
  obtain ⟨hT, hep⟩ := mem_endedIn.mp hT
  exact ⟨T, hT, hep, hTv⟩

theorem committedWrite_eq_none
    (hn : ∀ {U}, Ended h U → U.epoch = ep → lastWrite U ℓ h = none) :
    committedWrite ep ℓ h = none := by
  rcases hw : committedWrite ep ℓ h with _ | w
  · rfl
  · obtain ⟨U, hU, hep, hUw⟩ := exists_of_committedWrite hw
    rw [hn hU hep] at hUw
    cases hUw

theorem committedMem_closing (hl : e.left? = some (T, true)) :
    committedMem m₀ (e :: h) ℓ =
      (committedWrite T.epoch ℓ (e :: h)).getD (committedMem m₀ h ℓ) := by
  simp only [committedMem, hl]

theorem committedMem_cons (hc : ¬ e.closes) :
    committedMem m₀ (e :: h) = committedMem m₀ h := by
  funext ℓ
  rw [committedMem]
  split
  · rename_i T hl
    exact absurd ⟨T, hl⟩ hc
  · rfl

theorem epochMem_cons (hc : ¬ e.closes) : epochMem m₀ ep (e :: h) = epochMem m₀ ep h := by
  rw [epochMem]
  split
  · rename_i T hl
    exact absurd ⟨T, hl⟩ hc
  · rfl

theorem epochMem_closing (hl : e.left? = some (T, true)) (hep : T.epoch + 1 = ep) :
    epochMem m₀ ep (e :: h) = committedMem m₀ (e :: h) := by
  simp only [epochMem, hl, if_pos hep]

theorem epochMem_closing_ne (hl : e.left? = some (T, true)) (hep : T.epoch + 1 ≠ ep) :
    epochMem m₀ ep (e :: h) = epochMem m₀ ep h := by
  simp only [epochMem, hl, if_neg hep]

theorem not_closes_of_left_none (hl : e.left? = none) : ¬ e.closes := by
  rintro ⟨T, hT⟩
  rw [hl] at hT
  cases hT

end

end DualStm
