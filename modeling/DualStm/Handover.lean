import DualStm.Procon

/-!
# Every item is handed over

What the producer and the consumer do with their items keeps the ring in order as long as
each of them begins only when it may: `Sharing`. In `procon3.c` a thread begins after a load
that tells it that it may, and the other one cannot take that back.
-/

namespace DualStm

variable {V : Type} {len n : ℕ} {b b' : Ring V} {side : Side} {w : Work} {w' : Option Work}
  {r : ℕ} {v : V}

/-- How much of an item has been copied. -/
def Work.copied (len : ℕ) : Option Work → ℕ
  | some (.copy i) => i
  | some .count => len
  | _ => 0

/-- A thread can be there with its item. -/
def Work.Ok (len : ℕ) (side : Side) : Work → Prop
  | .fill i => i < len ∧ side = .producer
  | .copy i => i < len
  | .count => True

/-- How much is left to do with the item. -/
def Work.left (len : ℕ) : Work → ℕ
  | .fill i => len - i + len + 1
  | .copy i => len - i + 1
  | .count => 1

namespace Work

theorem copying_cases (side : Side) {i : ℕ} (hi : i ≤ len) :
    copied len (some (copying len i)) = i ∧ (copying len i).Ok len side ∧
      (copying len i).left len = len - i + 1 := by
  rw [copying]
  split
  · exact ⟨rfl, ‹_›, rfl⟩
  · obtain rfl : i = len := by omega
    refine ⟨rfl, trivial, ?_⟩
    rw [Nat.sub_self]
    rfl

theorem filling_cases {i : ℕ} (hi : i ≤ len) :
    copied len (some (filling len i)) = 0 ∧ (filling len i).Ok len .producer ∧
      (filling len i).left len = len - i + len + 1 := by
  rw [filling]
  split
  · exact ⟨rfl, ⟨‹_›, rfl⟩, rfl⟩
  · obtain rfl : i = len := by omega
    obtain ⟨hcopied, hok, hleft⟩ := copying_cases .producer (Nat.zero_le i)
    refine ⟨hcopied, hok, ?_⟩
    rw [hleft]
    omega

end Work

namespace Side

/-- The counter of a thread, `produced_until` or `consumed_until`. -/
def counter (b : Ring V) : Side → ℕ
  | .producer => b.producedUntil
  | .consumer => b.consumedUntil

/-- The thread may go on with the next item: there is room, or there is an item. -/
def MayGoOn (n : ℕ) (b : Ring V) : Side → Prop
  | .producer => b.HasRoom n
  | .consumer => b.HasItem

theorem eq_other {u : Side} (hu : u ≠ side) : u = side.other := by
  cases u <;> cases side <;> first | rfl | exact absurd rfl hu

theorem mayGoOn_iff (hr : side.counter b = r) :
    side.mayGoOn n b r = true ↔ side.MayGoOn n b := by
  subst hr
  cases side <;> simp [mayGoOn, MayGoOn, Ring.HasRoom, Ring.HasItem, counter]

/-- One of the two threads may always go on. -/
theorem exists_mayGoOn (hn : 0 < n) (b : Ring V) :
    Side.producer.MayGoOn n b ∨ Side.consumer.MayGoOn n b := by
  simp only [MayGoOn, Ring.HasRoom, Ring.HasItem]
  omega

/-- A thread that is behind may go on. -/
theorem mayGoOn_of_lt (hn : 0 < n) (hlt : side.counter b < side.other.counter b) :
    side.MayGoOn n b := by
  cases side with
  | producer =>
    have hlt : b.producedUntil < b.consumedUntil := hlt
    show b.producedUntil < b.consumedUntil + n
    omega
  | consumer => exact hlt

theorem mayGoOn_congr (hcounter : ∀ u : Side, u.counter b' = u.counter b) :
    side.MayGoOn n b' ↔ side.MayGoOn n b := by
  have hproducer : b'.producedUntil = b.producedUntil := hcounter .producer
  have hconsumer : b'.consumedUntil = b.consumedUntil := hcounter .consumer
  cases side <;> simp only [MayGoOn, Ring.HasRoom, Ring.HasItem, hproducer, hconsumer]

/-- If nobody may go on, and whoever is left by the other one is behind it, nobody is left. -/
theorem all_ended {P : Side → Prop} (hn : 0 < n)
    (h : ∀ side, ¬ P side → ¬ side.MayGoOn n b)
    (hlt : ∀ side, ¬ P side → P side.other → side.counter b < side.other.counter b) :
    ∀ side, P side := by
  intro side
  by_contra hside
  by_cases hother : P side.other
  · exact h side hside (mayGoOn_of_lt hn (hlt side hside hother))
  · have hnot := h side hside
    have hnot' := h side.other hother
    cases side with
    | producer => exact (exists_mayGoOn hn b).elim hnot hnot'
    | consumer => exact (exists_mayGoOn hn b).elim hnot' hnot

theorem first_left (len : ℕ) (side : Side) : (side.first len).left len ≤ 2 * len + 1 := by
  cases side with
  | producer =>
    rw [first, (Work.filling_cases (Nat.zero_le len)).2.2]
    omega
  | consumer =>
    rw [first, (Work.copying_cases .consumer (Nat.zero_le len)).2.2]
    omega

end Side

/-- The ring, and what the threads are doing with their items. -/
structure Sharing (len n : ℕ) (b : Ring V) (item : Side → Option Work) : Prop where
  /-- the ring is in order -/
  ring : RingInv n len b (Work.copied len (item .producer)) (Work.copied len (item .consumer))
  /-- a thread with an item may go on with it -/
  may : ∀ side w, item side = some w → side.MayGoOn n b
  /-- a thread with an item is at a place that there is -/
  ok : ∀ side w, item side = some w → w.Ok len side

namespace Sharing

variable {item item' : Side → Option Work}

/-- A thread that may go on can begin with its next item. -/
theorem start (hs : Sharing len n b item) (hnone : item side = none) (hmay : side.MayGoOn n b) :
    Sharing len n b (Function.update item side (some (side.first len))) := by
  obtain ⟨hring, hmays, hok⟩ := hs
  have hfirst : Work.copied len (some (side.first len)) = 0 ∧ (side.first len).Ok len side := by
    cases side with
    | producer =>
      obtain ⟨hcopied, hok, -⟩ := Work.filling_cases (Nat.zero_le len)
      exact ⟨hcopied, hok⟩
    | consumer =>
      obtain ⟨hcopied, hok, -⟩ := Work.copying_cases .consumer (Nat.zero_le len)
      exact ⟨hcopied, hok⟩
  refine ⟨?_, ?_, ?_⟩
  · have hsame : ∀ u, Work.copied len (Function.update item side (some (side.first len)) u) =
        Work.copied len (item u) := by
      intro u
      obtain rfl | hu := eq_or_ne u side
      · rw [Function.update_self, hnone, hfirst.1]
        rfl
      · rw [Function.update_of_ne hu]
    rw [hsame, hsame]
    exact hring
  · intro u w hw
    obtain rfl | hu := eq_or_ne u side
    · exact hmay
    · rw [Function.update_of_ne hu] at hw
      exact hmays u w hw
  · intro u w hw
    obtain rfl | hu := eq_or_ne u side
    · rw [Function.update_self] at hw
      obtain rfl := Option.some.inj hw
      exact hfirst.2
    · rw [Function.update_of_ne hu] at hw
      exact hok u w hw

/-- A thread that has an item has always something to do with it. -/
theorem exists_work (hs : Sharing len n b item) (hw : item side = some w) (r : ℕ) (v : V) :
    ∃ p, side.work len n b r v w = some p := by
  have hok := hs.ok side w hw
  cases side <;> cases w <;> first | exact ⟨_, rfl⟩ | exact absurd hok.2 (by simp)

/-- What becomes of the ring and the items when a thread goes on with its item `w`. -/
structure Worked (len n : ℕ) (b : Ring V) (item : Side → Option Work) (side : Side) (w : Work)
    (b' : Ring V) (w' : Option Work) : Prop where
  /-- the ring stays in order -/
  sharing : Sharing len n b' (Function.update item side w')
  /-- the other thread keeps its counter -/
  other : side.other.counter b' = side.other.counter b
  /-- the thread counts the item when it is done with it -/
  mine : side.counter b' = side.counter b + (if w' = none then 1 else 0)
  /-- the thread has less left to do -/
  left : ∀ w₁, w' = some w₁ → w₁.left len < w.left len

/-- Two threads share a ring as before if the ring is in order, the other thread may still go
on, and this one may if it has not done. -/
theorem update (hs : Sharing len n b item) {w' : Option Work}
    (hring : RingInv n len b' (Work.copied len (Function.update item side w' .producer))
      (Work.copied len (Function.update item side w' .consumer)))
    (hother : ∀ u, u ≠ side → u.MayGoOn n b → u.MayGoOn n b')
    (hself : ∀ w₁, w' = some w₁ → side.MayGoOn n b' ∧ w₁.Ok len side) :
    Sharing len n b' (Function.update item side w') := by
  refine ⟨hring, ?_, ?_⟩
  · intro u w₁ hw₁
    obtain rfl | hu := eq_or_ne u side
    · rw [Function.update_self] at hw₁
      exact (hself w₁ hw₁).1
    · rw [Function.update_of_ne hu] at hw₁
      exact hother u hu (hs.may u w₁ hw₁)
  · intro u w₁ hw₁
    obtain rfl | hu := eq_or_ne u side
    · rw [Function.update_self] at hw₁
      exact (hself w₁ hw₁).2
    · rw [Function.update_of_ne hu] at hw₁
      exact hs.ok u w₁ hw₁

theorem update_producer (w' : Option Work) :
    Function.update item .producer w' .consumer = item .consumer :=
  Function.update_of_ne (by simp) ..

theorem update_consumer (w' : Option Work) :
    Function.update item .consumer w' .producer = item .producer :=
  Function.update_of_ne (by simp) ..

/-- The producer fills one byte of its item. -/
theorem work_fill {i : ℕ} (hs : Sharing len n b item) (hw : item .producer = some (.fill i))
    (hr : Side.producer.counter b = r)
    (hwork : Side.producer.work len n b r v (.fill i) = some (b', w')) :
    Worked len n b item .producer (.fill i) b' w' := by
  subst hr
  obtain ⟨rfl, rfl⟩ := Prod.mk.inj (Option.some.inj hwork)
  have hlt := (hs.ok _ _ hw).1
  obtain ⟨hcopied, hok, hleft⟩ := Work.filling_cases (Nat.succ_le_of_lt hlt)
  have hitem : b.HasItem ∨ Work.copied len (item .consumer) = 0 := by
    cases hc : item .consumer with
    | none => exact .inr rfl
    | some w₁ => exact .inl (hs.may .consumer w₁ hc)
  have hring := hs.ring
  rw [hw] at hring
  refine ⟨hs.update ?_ (fun _ _ h => h) ?_, rfl, rfl, ?_⟩
  · rw [Function.update_self, update_producer, hcopied]
    exact hring.fill hitem i v
  · intro w₁ hw₁
    obtain rfl := Option.some.inj hw₁
    exact ⟨hs.may _ _ hw, hok⟩
  · intro w₁ hw₁
    obtain rfl := Option.some.inj hw₁
    rw [hleft]
    show len - (i + 1) + len + 1 < len - i + len + 1
    omega

/-- When one more byte is copied there is less left of the item. -/
theorem left_copying {i : ℕ} (side : Side) (hlt : i < len) :
    (Work.copying len (i + 1)).left len < (Work.copy i).left len := by
  rw [(Work.copying_cases side (Nat.succ_le_of_lt hlt)).2.2]
  show len - (i + 1) + 1 < len - i + 1
  omega

/-- The producer copies one byte to its slot. -/
theorem work_put {i : ℕ} (hs : Sharing len n b item) (hw : item .producer = some (.copy i))
    (hr : Side.producer.counter b = r)
    (hwork : Side.producer.work len n b r v (.copy i) = some (b', w')) :
    Worked len n b item .producer (.copy i) b' w' := by
  subst hr
  obtain ⟨rfl, rfl⟩ := Prod.mk.inj (Option.some.inj hwork)
  have hlt : i < len := hs.ok _ _ hw
  have hmay := hs.may _ _ hw
  obtain ⟨hcopied, hok, -⟩ := Work.copying_cases .producer (Nat.succ_le_of_lt hlt)
  have hring := hs.ring
  rw [hw] at hring
  refine ⟨hs.update ?_ (fun _ _ h => h) ?_, rfl, rfl, ?_⟩
  · rw [Function.update_self, update_producer, hcopied]
    exact hring.put hmay
  · intro w₁ hw₁
    obtain rfl := Option.some.inj hw₁
    exact ⟨hmay, hok⟩
  · intro w₁ hw₁
    obtain rfl := Option.some.inj hw₁
    exact left_copying .producer hlt

/-- The producer publishes its item, so that there is one more for the consumer. -/
theorem work_publish (hs : Sharing len n b item) (hw : item .producer = some .count)
    (hr : Side.producer.counter b = r)
    (hwork : Side.producer.work len n b r v .count = some (b', w')) :
    Worked len n b item .producer .count b' w' := by
  subst hr
  obtain ⟨rfl, rfl⟩ := Prod.mk.inj (Option.some.inj hwork)
  have hring := hs.ring
  rw [hw] at hring
  refine ⟨hs.update ?_ ?_ ?_, rfl, rfl, ?_⟩
  · rw [Function.update_self, update_producer]
    exact hring.publish (hs.may _ _ hw)
  · intro u hu h
    cases u with
    | producer => exact absurd rfl hu
    | consumer => exact Nat.lt_succ_of_lt h
  · intro w₁ hw₁
    cases hw₁
  · intro w₁ hw₁
    cases hw₁

/-- The consumer copies one byte from its slot. -/
theorem work_get {i : ℕ} (hs : Sharing len n b item) (hw : item .consumer = some (.copy i))
    (hr : Side.consumer.counter b = r)
    (hwork : Side.consumer.work len n b r v (.copy i) = some (b', w')) :
    Worked len n b item .consumer (.copy i) b' w' := by
  subst hr
  obtain ⟨rfl, rfl⟩ := Prod.mk.inj (Option.some.inj hwork)
  have hlt : i < len := hs.ok _ _ hw
  have hmay := hs.may _ _ hw
  obtain ⟨hcopied, hok, -⟩ := Work.copying_cases .consumer (Nat.succ_le_of_lt hlt)
  have hring := hs.ring
  rw [hw] at hring
  refine ⟨hs.update ?_ (fun _ _ h => h) ?_, rfl, rfl, ?_⟩
  · rw [Function.update_self, update_consumer, hcopied]
    exact hring.get hmay hlt
  · intro w₁ hw₁
    obtain rfl := Option.some.inj hw₁
    exact ⟨hmay, hok⟩
  · intro w₁ hw₁
    obtain rfl := Option.some.inj hw₁
    exact left_copying .consumer hlt

/-- The consumer releases its slot, so that there is one more for the producer. -/
theorem work_release (hs : Sharing len n b item) (hw : item .consumer = some .count)
    (hr : Side.consumer.counter b = r)
    (hwork : Side.consumer.work len n b r v .count = some (b', w')) :
    Worked len n b item .consumer .count b' w' := by
  subst hr
  obtain ⟨rfl, rfl⟩ := Prod.mk.inj (Option.some.inj hwork)
  have hring := hs.ring
  rw [hw] at hring
  refine ⟨hs.update ?_ ?_ ?_, rfl, rfl, ?_⟩
  · rw [Function.update_self, update_consumer]
    exact hring.release (hs.may _ _ hw)
  · intro u hu h
    cases u with
    | producer =>
      have hroom : b.producedUntil < b.consumedUntil + n := h
      show b.producedUntil < b.consumedUntil + 1 + n
      omega
    | consumer => exact absurd rfl hu
  · intro w₁ hw₁
    cases hw₁
  · intro w₁ hw₁
    cases hw₁

/-- **A thread goes on with its item.** The ring stays in order, the thread moves its own
counter only, and when it is done with the item, and there is less left to do. -/
theorem work (hs : Sharing len n b item) (hw : item side = some w) (hr : side.counter b = r)
    (hwork : side.work len n b r v w = some (b', w')) :
    Worked len n b item side w b' w' := by
  cases side with
  | producer =>
    cases w with
    | fill i => exact hs.work_fill hw hr hwork
    | copy i => exact hs.work_put hw hr hwork
    | count => exact hs.work_publish hw hr hwork
  | consumer =>
    cases w with
    | fill i => cases hwork
    | copy i => exact hs.work_get hw hr hwork
    | count => exact hs.work_release hw hr hwork

/-- **No race.** When both copy, they are at different slots. -/
theorem slots_ne (hs : Sharing len n b item) (w₁ w₂ : Work) (h₁ : item .producer = some w₁)
    (h₂ : item .consumer = some w₂) :
    Side.producer.counter b % n ≠ Side.consumer.counter b % n :=
  (RingInv.apart (hs.may _ _ h₁) (hs.may _ _ h₂)).symm

end Sharing

/-- What `main` finds when everything is out. -/
theorem looksCorrect_of_taken [DecidableEq V] {runs : ℕ}
    (h : ∀ k i, k < runs → i < len → b.consumed k i = b.produced k i) :
    looksCorrect runs len b = true := by
  simp only [looksCorrect, areSame, List.all_eq_true, List.mem_range, decide_eq_true_eq]
  exact fun k hk i hi => (h k i hk hi).symm

/-! ## `procon3.c`

The two threads of `procon3.c` take turns by spinning on the counters. Each goes through its
items one after the other, so what they have copied is known from the counters. -/

namespace Procon3

variable {runs : ℕ} {s s' : State V} {a : ProconAction V} {e : Side} {h : List Side}

/-- What a thread there is doing with its item. -/
def Pc.work? : Pc → Option Work
  | .item w => some w
  | _ => none

/-- How much of the round a thread there has before it. -/
def Pc.left (len : ℕ) : Pc → ℕ
  | .load => 2 * len + 2
  | .item w => w.left len
  | .exited => 0

/-- The invariant of `procon3.c`: the two threads share the ring, and each is as far as its
counter says. -/
structure Inv (runs len n : ℕ) (s : State V) : Prop where
  /-- the items -/
  sharing : Sharing len n s.ring (Pc.work? ∘ s.pc)
  /-- a thread counts its items -/
  counter : ∀ side, side.counter s.ring = s.r side
  /-- no item too many -/
  le : ∀ side, s.r side ≤ runs
  /-- a thread ends when there are no more -/
  exited : ∀ side, s.pc side = .exited ↔ s.r side = runs

/-- How many steps a thread is from its end. -/
def State.threadLeft (runs len : ℕ) (s : State V) (side : Side) : ℕ :=
  (runs - s.r side) * (2 * len + 3) + (s.pc side).left len

/-- The steps that are left to both threads. -/
def State.left (runs len : ℕ) (s : State V) : ℕ := ∑ side, s.threadLeft runs len side

theorem step_eq : step runs len n s a = thread runs len n s a.side a.rand := by
  rw [step]
  cases a.side <;> rfl

theorem next_eq {r : ℕ} (hr : r ≤ runs) : next runs r = .exited ↔ r = runs := by
  rw [next]
  split
  · simp
    omega
  · simp
    omega

theorem next_work {r : ℕ} : (next runs r).work? = none := by
  rw [next]
  split <;> rfl

theorem Inv.create : Inv runs len n (create runs v) := by
  have hitem : Pc.work? ∘ (Procon3.create runs v).pc = fun _ => none := funext fun _ => next_work
  refine ⟨?_, ?_, fun _ => Nat.zero_le _, fun side => next_eq (Nat.zero_le _)⟩
  · rw [hitem]
    refine ⟨RingInv.create, ?_, ?_⟩
    · intro side w hw
      cases hw
    · intro side w hw
      cases hw
  · intro side
    cases side <;> rfl

/-- A thread that has not ended has an item before it. -/
theorem Inv.lt (hi : Inv runs len n s) (side : Side) (hpc : s.pc side ≠ .exited) :
    s.r side < runs :=
  lt_of_le_of_ne (hi.le side) fun heq => hpc ((hi.exited side).mpr heq)

/-- The steps before all threads are fewer when they are for one of them. -/
theorem left_lt (side : Side) (hpc : ∀ u, u ≠ side → s'.pc u = s.pc u)
    (hr : ∀ u, u ≠ side → s'.r u = s.r u)
    (hlt : s'.threadLeft runs len side < s.threadLeft runs len side) :
    s'.left runs len < s.left runs len := by
  apply sum_lt_of_member hlt
  intro u hu
  rw [State.threadLeft, State.threadLeft, hpc u hu, hr u hu]

/-- A thread that loads a counter which lets it go on begins with its item. -/
theorem Inv.thread_load (hi : Inv runs len n s) {side : Side} (hpc : s.pc side = .load)
    (hmay : side.mayGoOn n s.ring (s.r side) = true)
    (hs : Procon3.thread runs len n s side v = some (s', e)) :
    Inv runs len n s' ∧ s'.left runs len < s.left runs len := by
  have hlt := hi.lt side (by simp [hpc])
  simp only [Procon3.thread, hpc, if_pos hmay] at hs
  obtain ⟨rfl, -⟩ := Prod.mk.inj (Option.some.inj hs)
  refine ⟨⟨?_, hi.counter, hi.le, ?_⟩,
    left_lt side (fun u hu => Function.update_of_ne hu ..) (fun _ _ => rfl) ?_⟩
  · show Sharing len n s.ring (Pc.work? ∘ Function.update s.pc side _)
    rw [Function.comp_update]
    refine hi.sharing.start ?_ ((Side.mayGoOn_iff (hi.counter side)).mp hmay)
    show (s.pc side).work? = none
    rw [hpc]
    rfl
  · intro u
    obtain rfl | hu := eq_or_ne u side
    · simp [hlt.ne]
    · simp only [Function.update_of_ne hu]
      exact hi.exited u
  · simp only [State.threadLeft, Function.update_self, hpc, Pc.left]
    have hfirst := Side.first_left len side
    omega

/-- A thread that is not done with its item stays in its round. -/
theorem Inv.goesOn (hi : Inv runs len n s) {side : Side} {w w' : Work} {b : Ring V}
    (hpc : s.pc side = .item w)
    (hworked : Sharing.Worked len n s.ring (Pc.work? ∘ s.pc) side w b (some w')) :
    Inv runs len n { s with ring := b, pc := Function.update s.pc side (.item w') } ∧
      State.left runs len { s with ring := b, pc := Function.update s.pc side (.item w') } <
        s.left runs len := by
  have hlt := hi.lt side (by simp [hpc])
  refine ⟨⟨?_, ?_, hi.le, ?_⟩,
    left_lt side (fun u hu => Function.update_of_ne hu ..) (fun _ _ => rfl) ?_⟩
  · show Sharing len n b (Pc.work? ∘ Function.update s.pc side _)
    rw [Function.comp_update]
    exact hworked.sharing
  · intro u
    obtain rfl | hu := eq_or_ne u side
    · exact hworked.mine.trans (hi.counter u)
    · obtain rfl := Side.eq_other hu
      exact hworked.other.trans (hi.counter _)
  · intro u
    obtain rfl | hu := eq_or_ne u side
    · simp [hlt.ne]
    · simp only [Function.update_of_ne hu]
      exact hi.exited u
  · simp only [State.threadLeft, Function.update_self, hpc, Pc.left]
    exact Nat.add_lt_add_left (hworked.left w' rfl) _

/-- A thread that is done with its item is one round further. -/
theorem Inv.nextRound (hi : Inv runs len n s) {side : Side} {w : Work} {b : Ring V}
    (hpc : s.pc side = .item w)
    (hworked : Sharing.Worked len n s.ring (Pc.work? ∘ s.pc) side w b none) :
    Inv runs len n { s with
        ring := b
        r := Function.update s.r side (s.r side + 1)
        pc := Function.update s.pc side (next runs (s.r side + 1)) } ∧
      State.left runs len { s with
        ring := b
        r := Function.update s.r side (s.r side + 1)
        pc := Function.update s.pc side (next runs (s.r side + 1)) } < s.left runs len := by
  have hlt := hi.lt side (by simp [hpc])
  refine ⟨⟨?_, ?_, ?_, ?_⟩, left_lt side (fun u hu => Function.update_of_ne hu ..)
    (fun u hu => Function.update_of_ne hu ..) ?_⟩
  · show Sharing len n b (Pc.work? ∘ Function.update s.pc side _)
    rw [Function.comp_update, next_work]
    exact hworked.sharing
  · intro u
    obtain rfl | hu := eq_or_ne u side
    · simp only [Function.update_self]
      exact hworked.mine.trans (congrArg (· + 1) (hi.counter u))
    · simp only [Function.update_of_ne hu]
      obtain rfl := Side.eq_other hu
      exact hworked.other.trans (hi.counter _)
  · intro u
    obtain rfl | hu := eq_or_ne u side
    · simp only [Function.update_self]
      exact hlt
    · simp only [Function.update_of_ne hu]
      exact hi.le u
  · intro u
    obtain rfl | hu := eq_or_ne u side
    · simp only [Function.update_self]
      exact next_eq hlt
    · simp only [Function.update_of_ne hu]
      exact hi.exited u
  · simp only [State.threadLeft, Function.update_self, hpc]
    have hnext : (next runs (s.r side + 1)).left len ≤ 2 * len + 2 := by
      rw [next]
      split
      · exact le_rfl
      · exact Nat.zero_le _
    have hrounds : (runs - (s.r side + 1)) * (2 * len + 3) + (2 * len + 3) =
        (runs - s.r side) * (2 * len + 3) := by
      rw [← Nat.succ_mul]
      congr 1
      omega
    omega

/-- **A step of a thread** that does not load in vain. -/
theorem Inv.thread (hi : Inv runs len n s) {side : Side}
    (hspin : s.pc side = .load → side.mayGoOn n s.ring (s.r side) = true)
    (hs : Procon3.thread runs len n s side v = some (s', e)) :
    Inv runs len n s' ∧ s'.left runs len < s.left runs len := by
  cases hpc : s.pc side with
  | load => exact hi.thread_load hpc (hspin hpc) hs
  | item w =>
    rw [Procon3.thread, hpc] at hs
    obtain ⟨⟨b, w'⟩, hwork, heq⟩ := Option.map_eq_some_iff.mp hs
    have hw : (Pc.work? ∘ s.pc) side = some w := congrArg Pc.work? hpc
    have hworked := hi.sharing.work hw (hi.counter side) hwork
    cases w' with
    | some w' =>
      obtain ⟨rfl, -⟩ := Prod.mk.inj heq
      exact hi.goesOn hpc hworked
    | none =>
      obtain ⟨rfl, -⟩ := Prod.mk.inj heq
      exact hi.nextRound hpc hworked
  | exited =>
    rw [Procon3.thread, hpc] at hs
    cases hs

/-- What is to be done gets less with every step. -/
theorem lowers_stride : Lowers (stride (V := V) runs len n) (Inv runs len n)
    (State.left runs len) := by
  intro s a s' e hi hs
  rw [stride] at hs
  split at hs
  · cases hs
  · rename_i hspin
    rw [step_eq] at hs
    refine hi.thread ?_ hs
    intro hload
    by_contra hmay
    rw [Bool.not_eq_true] at hmay
    exact hspin (by simp [spins, hload, hmay])

theorem Inv.run (hr : Run (step runs len n) anyStep (Procon3.create runs v) h s) :
    Inv runs len n s := by
  induction hr with
  | start => exact .create
  | @next h s s' a e _ hs _ ih =>
    by_cases hspin : spins n s a = true
    · -- nothing has changed
      simp only [spins, Bool.and_eq_true, beq_iff_eq, Bool.not_eq_true'] at hspin
      rw [step_eq, Procon3.thread, hspin.1] at hs
      simp only [hspin.2] at hs
      obtain ⟨rfl, -⟩ := Prod.mk.inj (Option.some.inj hs)
      exact ih
    · have hstride : stride runs len n s a = some (s', e) := by
        rw [stride, if_neg hspin]
        exact hs
      exact (lowers_stride _ _ _ _ ih hstride).1

/-- Nobody waits for nothing: when no thread can go on, both have ended. -/
theorem Inv.of_stuck (hi : Inv runs len n s) (hn : 0 < n) (hs : Stuck (stride runs len n) s)
    (v : V) : ∀ side, s.pc side = .exited := by
  -- a thread that has not ended loads in vain
  have hvain : ∀ side, s.pc side ≠ .exited →
      s.pc side = .load ∧ ¬ side.MayGoOn n s.ring := by
    intro side hne
    have hstuck := hs ⟨side, v⟩
    rw [stride, step_eq] at hstuck
    split at hstuck
    · rename_i hspin
      simp only [spins, Bool.and_eq_true, beq_iff_eq, Bool.not_eq_true'] at hspin
      refine ⟨hspin.1, ?_⟩
      intro hmay
      rw [(Side.mayGoOn_iff (hi.counter side)).mpr hmay] at hspin
      cases hspin.2
    · exfalso
      unfold Procon3.thread at hstuck
      cases hpc : s.pc side with
      | load =>
        rw [hpc] at hstuck
        by_cases hmay : side.mayGoOn n s.ring (s.r side) = true
        · simp only [if_pos hmay] at hstuck
          cases hstuck
        · simp only [if_neg hmay] at hstuck
          cases hstuck
      | item w =>
        have hw : (Pc.work? ∘ s.pc) side = some w := by
          show (s.pc side).work? = some w
          rw [hpc]
          rfl
        obtain ⟨p, hp⟩ := hi.sharing.exists_work hw (s.r side) v
        rw [hpc] at hstuck
        simp only [hp, Option.map_some] at hstuck
        cases hstuck
      | exited => exact hne hpc
  apply Side.all_ended hn (fun side hne => (hvain side hne).2)
  intro side hne hother
  rw [hi.counter, hi.counter, (hi.exited side.other).mp hother]
  exact hi.lt side hne

end Procon3

/-- **`procon3.c` is correct.** In every run, whatever has been consumed is what was produced;
the two are never copying at the same slot; the threads can go on until both have ended, and
then `main` finds that all is correct. -/
theorem procon3_correct [DecidableEq V] {runs : ℕ} (hn : 0 < n) {h : List Side}
    {s : Procon3.State V}
    (hr : Run (Procon3.step runs len n) anyStep (Procon3.create runs v) h s) :
    (∀ k i, k < s.r .consumer → i < len → s.ring.consumed k i = s.ring.produced k i) ∧
      (∀ w₁ w₂, s.pc .producer = .item w₁ → s.pc .consumer = .item w₂ →
        s.r .producer % n ≠ s.r .consumer % n) ∧
      (∃ g s', Run (Procon3.stride runs len n) anyStep s g s' ∧
        Stuck (Procon3.stride runs len n) s') ∧
      (Stuck (Procon3.stride runs len n) s →
        (∀ side, s.pc side = .exited) ∧ looksCorrect runs len s.ring = true) := by
  have hi := Procon3.Inv.run hr
  have htaken : ∀ k i, k < s.r .consumer → i < len →
      s.ring.consumed k i = s.ring.produced k i := by
    intro k i hk hi'
    rw [← hi.counter .consumer] at hk
    exact hi.sharing.ring.taken k i hk hi'
  refine ⟨htaken, ?_, Procon3.lowers_stride.exists_stuck hi, ?_⟩
  · intro w₁ w₂ h₁ h₂
    rw [← hi.counter .producer, ← hi.counter .consumer]
    exact hi.sharing.slots_ne w₁ w₂ (congrArg Procon3.Pc.work? h₁)
      (congrArg Procon3.Pc.work? h₂)
  · intro hstuck
    have hexited := hi.of_stuck hn hstuck v
    refine ⟨hexited, looksCorrect_of_taken fun k i hk hi' => htaken k i ?_ hi'⟩
    rw [(hi.exited .consumer).mp (hexited .consumer)]
    exact hk

/-- Two items go through one slot: the consumer is done with the first one, and the producer
has filled the second one. -/
def oneSlot : List (ProconAction ℕ) :=
  [⟨.producer, 0⟩, ⟨.consumer, 0⟩, ⟨.producer, 7⟩, ⟨.producer, 8⟩, ⟨.producer, 0⟩,
    ⟨.producer, 0⟩, ⟨.producer, 0⟩, ⟨.producer, 0⟩, ⟨.consumer, 0⟩, ⟨.consumer, 0⟩,
    ⟨.consumer, 0⟩, ⟨.consumer, 0⟩, ⟨.producer, 0⟩, ⟨.producer, 5⟩, ⟨.producer, 6⟩]

/-- The second byte of the first item is 8 on both sides, and the threads can end. -/
theorem procon3_correct_oneSlot :
    ∃ h s, Run (Procon3.step 2 2 1) anyStep (Procon3.create 2 0) h s ∧
      (s.r .consumer, s.ring.produced 0 1) = (1, 8) ∧ s.ring.consumed 0 1 = 8 ∧
      ∃ g s', Run (Procon3.stride 2 2 1) anyStep s g s' ∧ Stuck (Procon3.stride 2 2 1) s' := by
  obtain ⟨s, hr, hx⟩ : ∃ s, Run (Procon3.step 2 2 1) anyStep (Procon3.create 2 0)
      (oneSlot.map ProconAction.side).reverse s ∧
      (s.r .consumer, s.ring.produced 0 1) = (1, 8) :=
    Run.of_execUnder oneSlot .start (by decide +kernel)
  obtain ⟨hconsumer, hproduced⟩ := Prod.mk.inj hx
  obtain ⟨htaken, -, hends, -⟩ := procon3_correct Nat.one_pos hr
  have hk : 0 < s.r .consumer := by
    rw [hconsumer]
    exact Nat.one_pos
  exact ⟨_, s, hr, hx, (htaken 0 1 hk Nat.one_lt_two).trans hproduced, hends⟩

end DualStm
