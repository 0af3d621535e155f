import Mathlib.Data.List.Nodup

/-!
# Doubly linked lists

The links of a list are two partial functions, `next` and `prev`. The nodes of `l` are
`DoublyLinked` when they are linked both ways, with `p` before the first and `q` behind the
last. A list that is put together from two is linked when its parts are, each with the nearest
node of the other at its end.

Two edits are local: to put a node before the first one, and to take a node out.
-/

namespace DualStm

universe u

variable {α : Type u}

/-- The nodes are linked both ways, between `p` and `q`. -/
def DoublyLinked (next prev : α → Option α) : α → List α → α → Prop
  | _, [], _ => True
  | p, x :: l, q => prev x = some p ∧ next x = some (l.headD q) ∧ DoublyLinked next prev x l q

section

variable {next prev next' prev' : α → Option α} {p q r x y : α} {l l₁ l₂ : List α}

theorem headD_append : (l₁ ++ l₂).headD q = l₁.headD (l₂.headD q) := by
  cases l₁ <;> rfl

theorem getLast?_eq_some_iff_getLastD (hne : x ≠ p) : l.getLast? = some x ↔ l.getLastD p = x := by
  rw [List.getLastD_eq_getLast?]
  cases l.getLast? with
  | none => exact iff_of_false nofun hne.symm
  | some y => exact Option.some_inj

theorem head?_eq_some_iff_headD (hne : x ≠ q) : l.head? = some x ↔ l.headD q = x := by
  rw [List.headD_eq_head?_getD]
  cases l.head? with
  | none => exact iff_of_false nofun hne.symm
  | some y => exact Option.some_inj

/-- A list in two parts is linked if both parts are, each to the other. -/
theorem doublyLinked_append : DoublyLinked next prev p (l₁ ++ l₂) q ↔
    DoublyLinked next prev p l₁ (l₂.headD q) ∧ DoublyLinked next prev (l₁.getLastD p) l₂ q := by
  induction l₁ generalizing p with
  | nil => exact (and_iff_right trivial).symm
  | cons x l₁ ih =>
    rw [List.cons_append, DoublyLinked, DoublyLinked, ih, headD_append, List.getLastD_cons]
    simp only [and_assoc]

/-- Links that agree on the nodes make the same list. -/
theorem DoublyLinked.congr (hl : DoublyLinked next prev p l q)
    (hnext : ∀ x ∈ l, next' x = next x) (hprev : ∀ x ∈ l, prev' x = prev x) :
    DoublyLinked next' prev' p l q := by
  induction l generalizing p with
  | nil => trivial
  | cons x l ih =>
    obtain ⟨hp, hn, hl⟩ := hl
    rw [List.forall_mem_cons] at hnext hprev
    exact ⟨hprev.1.trans hp, hnext.1.trans hn, ih hl hnext.2 hprev.2⟩

/-- Links that agree on the nodes, but for what is before the first. -/
theorem DoublyLinked.congr_head (hl : DoublyLinked next prev p l q)
    (hnext : ∀ x ∈ l, next' x = next x) (hhead : ∀ x, l.head? = some x → prev' x = some r)
    (hprev : ∀ x ∈ l.tail, prev' x = prev x) : DoublyLinked next' prev' r l q := by
  cases l with
  | nil => trivial
  | cons x l =>
    obtain ⟨-, hn, hl⟩ := hl
    rw [List.forall_mem_cons] at hnext
    exact ⟨hhead x rfl, hnext.1.trans hn, hl.congr hnext.2 hprev⟩

/-- Links that agree on the nodes, but for what is behind the last. -/
theorem DoublyLinked.congr_last (hl : DoublyLinked next prev p l q)
    (hprev : ∀ x ∈ l, prev' x = prev x) (hlast : ∀ x, l.getLast? = some x → next' x = some r)
    (hnext : ∀ x ∈ l.dropLast, next' x = next x) : DoublyLinked next' prev' p l r := by
  rcases List.eq_nil_or_concat l with rfl | ⟨l, x, rfl⟩
  · trivial
  · rw [List.concat_eq_append] at *
    rw [doublyLinked_append] at hl ⊢
    obtain ⟨hl, hp, -, -⟩ := hl
    rw [List.dropLast_concat] at hnext
    refine ⟨hl.congr hnext fun y hy => hprev y (List.mem_append_left _ hy), ?_, ?_, trivial⟩
    · exact (hprev x (List.mem_append_right _ List.mem_cons_self)).trans hp
    · exact hlast x List.getLast?_concat

/-! ## Both ways

The node behind a node has it before, and the node before it has it behind. At the two ends the
links are to what the list is linked to. -/

/-- The node behind a node has it before. -/
theorem DoublyLinked.prev_next (hl : DoublyLinked next prev p l q) (hx : x ∈ l) :
    ∃ y, next x = some y ∧ (y = q ∨ y ∈ l ∧ prev y = some x) := by
  obtain ⟨l₁, l₂, rfl⟩ := List.append_of_mem hx
  obtain ⟨-, -, hn, hl⟩ := doublyLinked_append.mp hl
  refine ⟨_, hn, ?_⟩
  cases l₂ with
  | nil => exact .inl rfl
  | cons y l₂ => exact .inr ⟨by simp, hl.1⟩

/-- The node before a node has it behind. -/
theorem DoublyLinked.next_prev (hl : DoublyLinked next prev p l q) (hx : x ∈ l) :
    ∃ y, prev x = some y ∧ (y = p ∨ y ∈ l ∧ next y = some x) := by
  obtain ⟨l₁, l₂, rfl⟩ := List.append_of_mem hx
  obtain ⟨hl, hp, -⟩ := doublyLinked_append.mp hl
  refine ⟨_, hp, ?_⟩
  rcases List.eq_nil_or_concat l₁ with rfl | ⟨l₁, y, rfl⟩
  · exact .inl rfl
  · rw [List.concat_eq_append] at *
    obtain ⟨-, -, hn, -⟩ := doublyLinked_append.mp hl
    refine .inr ⟨by simp, ?_⟩
    simpa using hn

/-! ## The two edits

A node is put before the first one, or taken out from between two others. Each edit says which
links are new and that the others are as they were. -/

/-- A node whose links are to the head and to where the head was linked can be put before it. -/
theorem DoublyLinked.push (hl : DoublyLinked next prev p l q) (hnodup : l.Nodup)
    (hpy : prev' y = some r) (hny : next' y = some (l.headD q))
    (hnext : ∀ x ∈ l, next' x = next x) (hhead : ∀ x, l.head? = some x → prev' x = some y)
    (hprev : ∀ x ∈ l, l.head? ≠ some x → prev' x = prev x) :
    DoublyLinked next' prev' r (y :: l) q := by
  refine ⟨hpy, hny, hl.congr_head hnext hhead ?_⟩
  intro x hx
  apply hprev x (List.mem_of_mem_tail hx)
  intro hx'
  obtain ⟨l, rfl⟩ := List.head?_eq_some_iff.mp hx'
  exact (List.nodup_cons.mp hnodup).1 hx

/-- A node can be taken out if the nodes next to it are linked to each other. -/
theorem DoublyLinked.unlink (hl : DoublyLinked next prev p (l₁ ++ y :: l₂) q)
    (hnodup : (l₁ ++ l₂).Nodup)
    (hlast : ∀ x, l₁.getLast? = some x → next' x = some (l₂.headD q))
    (hhead : ∀ x, l₂.head? = some x → prev' x = some (l₁.getLastD p))
    (hnext : ∀ x ∈ l₁ ++ l₂, l₁.getLast? ≠ some x → next' x = next x)
    (hprev : ∀ x ∈ l₁ ++ l₂, l₂.head? ≠ some x → prev' x = prev x) :
    DoublyLinked next' prev' p (l₁ ++ l₂) q := by
  obtain ⟨hl₁, -, -, hl₂⟩ := doublyLinked_append.mp hl
  obtain ⟨hnodup₁, hnodup₂, hdisjoint⟩ := List.nodup_append.mp hnodup
  refine doublyLinked_append.mpr ⟨hl₁.congr_last ?_ hlast ?_, hl₂.congr_head ?_ hhead ?_⟩
  · intro x hx
    -- the first node behind is not one before
    exact hprev x (List.mem_append_left _ hx) fun hx' =>
      hdisjoint x hx x (List.mem_of_head? hx') rfl
  · intro x hx
    apply hnext x (List.mem_append_left _ (List.dropLast_subset _ hx))
    intro hx'
    obtain ⟨l, rfl⟩ := List.getLast?_eq_some_iff.mp hx'
    rw [List.dropLast_concat] at hx
    exact (List.nodup_append.mp hnodup₁).2.2 x hx x List.mem_cons_self rfl
  · intro x hx
    -- and the last node before is not one behind
    exact hnext x (List.mem_append_right _ hx) fun hx' =>
      hdisjoint x (List.mem_of_getLast? hx') x hx rfl
  · intro x hx
    apply hprev x (List.mem_append_right _ (List.mem_of_mem_tail hx))
    intro hx'
    obtain ⟨l, rfl⟩ := List.head?_eq_some_iff.mp hx'
    exact (List.nodup_cons.mp hnodup₂).1 hx

end

end DualStm
