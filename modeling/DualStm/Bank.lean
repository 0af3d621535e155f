import DualStm.Library.Prog
import Mathlib.Data.Int.Init
import Mathlib.Algebra.Group.Nat.Defs

/-!
# The bank workload

The transactions of `WorkloadBank`, as programs over the shared memory. The
accounts are in a linked list of segments; a segment has a count, a next pointer,
a parity and its accounts.

The closures of `short_tx` and `long_tx` capture variables of their caller by
reference. A `Tx` is a transaction with those variables, and `Prog.save` is an
assignment to them. A closure that is called again after an abort starts from
what the previous attempt has left there.

A word is an unbounded integer, as the balances of the statements do not
overflow. The checks on `assert_mode` are off.
-/

namespace DualStm

/-! ## Shared variables

`Shared<Type>` is an address whose `read` and `write` are a `tm_read` and a `tm_write` of one
word; the wrappers for pointers allocate and free what they point to. -/

/-- The size of a `size_t`, a pointer or a `Balance`. -/
def WORD_SIZE : ℕ := 8

namespace Shared

variable {C : Type}

/-- `Shared<Balance>::read`, one word read at the address. -/
def read (address : ℕ) : Prog C ℤ ℤ := .read address .ret

/-- `Shared<size_t>::read`, and that of a pointer. -/
def readSize (address : ℕ) : Prog C ℤ ℕ := .read address fun v => .ret v.toNat

/-- `Shared::write`, one word written at the address. -/
def write (address : ℕ) (source : ℤ) : Prog C ℤ Unit := .write address source (.ret ())

/-- `Shared<Type*>::alloc`: the segment that is allocated becomes what the variable points to. -/
def alloc (address size : ℕ) : Prog C ℤ ℕ := .alloc size fun addr => .write address addr (.ret addr)

/-- `Shared<Type*>::free`: the segment that the variable points to is freed, and the variable
is null. -/
def free (address : ℕ) : Prog C ℤ Unit := do
  let addr ← readSize address
  Prog.free addr (.ret ())
  write address 0

/-- `Shared::after`, the address of the word that follows. -/
def after (address : ℕ) : ℕ := address + WORD_SIZE

end Shared

/-- `AccountSegment`: the addresses of its fields. -/
structure AccountSegment where
  /-- number of allocated accounts -/
  count : ℕ
  /-- next segment -/
  next : ℕ
  /-- correction for deleted accounts -/
  parity : ℕ
  /-- amounts of money -/
  accounts : ℕ

namespace AccountSegment

variable {C : Type}

/-- The fields of a segment at an address. -/
def ofAddress (address : ℕ) : AccountSegment :=
  let count := address
  let next := Shared.after count
  let parity := Shared.after next
  { count, next, parity, accounts := Shared.after parity }

/-- The binding constructor. A null pointer has no fields. -/
def bind (address : ℕ) : Prog C ℤ AccountSegment :=
  if address = 0 then .fault else pure (.ofAddress address)

/-- `AccountSegment::size`: the three words of the header and one for each account. -/
def size (nbaccounts : ℕ) : ℕ := 3 * WORD_SIZE + nbaccounts * WORD_SIZE

/-- `accounts[index]`, the address of an account of the segment. -/
def account (segment : AccountSegment) (index : ℕ) : ℕ := segment.accounts + index * WORD_SIZE

end AccountSegment

/-! ## The transactions

Each closure of `WorkloadBank` is a program over the words of the shared memory. The three that
walk over the list are loops, and a loop is given by one of its turns. -/

/-- The fields of `WorkloadBank` that its transactions use. -/
structure WorkloadBank where
  /-- `tm.get_start()` -/
  start : ℕ
  /-- number of accounts of a segment, and at the start -/
  nbaccounts : ℕ
  /-- initial balance of an account -/
  initBalance : ℤ

/-- The transactions, with the variables their closures capture. -/
inductive Tx where
  /-- the first transaction of `init` -/
  | init
  /-- the second one -/
  | initCheck
  /-- `long_tx` -/
  | long (nbaccounts : ℕ)
  /-- `alloc_tx` -/
  | alloc (trigger : ℕ)
  /-- `short_tx` -/
  | short (sendId recvId : ℕ)
  deriving DecidableEq

/-- The mode a transaction is begun with. -/
def Tx.isRo : Tx → Bool
  | .initCheck => true
  | .long _ => true
  | _ => false

/-- The locals of `long_tx`: where it stands in the list, and what it has added up. -/
structure LongLocals where
  /-- the next segment to visit -/
  start : ℕ
  /-- accounts seen -/
  count : ℕ
  /-- balance seen -/
  sum : ℤ

/-- The locals of `alloc_tx`: where it stands in the list, and what it has counted. -/
structure AllocLocals where
  /-- the segment to visit -/
  start : ℕ
  /-- accounts seen -/
  count : ℕ
  /-- the segment before -/
  prev : ℕ

/-- The locals of `short_tx`, the captured ids among them. -/
structure ShortLocals where
  /-- the segment to visit -/
  start : ℕ
  /-- index of the sender, from the segment on -/
  sendId : ℕ
  /-- index of the receiver -/
  recvId : ℕ
  /-- address of the sender -/
  sendPtr : ℕ
  /-- address of the receiver -/
  recvPtr : ℕ

variable (bank : WorkloadBank)

/-- The `for` loop of `init`, from account `i` on. -/
def fillAccounts (segment : AccountSegment) : ℕ → ℕ → Prog Tx ℤ Unit
  | 0, _ => pure ()
  | k + 1, i => do
    Shared.write (segment.account i) bank.initBalance
    fillAccounts segment k (i + 1)

/-- The first transaction of `init`, which fills the first segment. -/
def initTx : Prog Tx ℤ Unit := do
  let segment ← AccountSegment.bind bank.start
  Shared.write segment.count bank.nbaccounts
  fillAccounts bank segment bank.nbaccounts 0

/-- The second transaction of `init`, which checks what the first one has made. -/
def initCheckTx : Prog Tx ℤ Bool := do
  let segment ← AccountSegment.bind bank.start
  return (← Shared.read (segment.account 0)) == bank.initBalance

/-- The `for` loop of `long_tx`, from account `i` on; `none` for `return false`. -/
def sumAccounts (segment : AccountSegment) : ℕ → ℕ → ℤ → Prog Tx ℤ (Option ℤ)
  | 0, _, sum => pure (some sum)
  | k + 1, i, sum => do
    let balance ← Shared.read (segment.account i)
    if balance < 0 then return none
    else sumAccounts segment k (i + 1) (sum + balance)

/-- One turn of the loop of `long_tx`, over one segment of the list. -/
def longTurn (l : LongLocals) : Prog Tx ℤ (LongLocals ⊕ Bool) := do
  if l.start = 0 then
    Prog.save (.long l.count) (pure ())
    return .inr (l.sum == bank.initBalance * l.count)
  else
    let segment ← AccountSegment.bind l.start
    let segmentCount ← Shared.readSize segment.count
    let parity ← Shared.read segment.parity
    match ← sumAccounts segment segmentCount 0 (l.sum + parity) with
    | none => return .inr false
    | some sum =>
      let next ← Shared.readSize segment.next
      return .inl ⟨next, l.count + segmentCount, sum⟩

/-- `--n` on a `size_t`, which goes from zero to the largest value. -/
def decrement (n : ℕ) : ℕ := if n = 0 then 2 ^ 64 - 1 else n - 1

/-- The branch of `alloc_tx` that destroys an account. -/
def destroyAccount (prev : ℕ) (segment : AccountSegment) (segmentCount : ℕ) :
    Prog Tx ℤ Unit := do
  let segmentCount := decrement segmentCount
  let parity ← Shared.read segment.parity
  let balance ← Shared.read (segment.account segmentCount)
  let newParity := parity + balance - bank.initBalance
  if segmentCount > 0 then
    Shared.write segment.count segmentCount
    Shared.write segment.parity newParity
  else
    let prevSegment ← AccountSegment.bind prev
    Shared.free prevSegment.next
    let prevParity ← Shared.read prevSegment.parity
    Shared.write prevSegment.parity (prevParity + newParity)

/-- The branch of `alloc_tx` that creates an account. -/
def createAccount (segment : AccountSegment) (segmentCount : ℕ) : Prog Tx ℤ Unit := do
  if segmentCount < bank.nbaccounts then
    Shared.write (segment.account segmentCount) bank.initBalance
    Shared.write segment.count (segmentCount + 1 : ℕ)
  else
    let address ← Shared.alloc segment.next (AccountSegment.size bank.nbaccounts)
    let nextSegment ← AccountSegment.bind address
    Shared.write nextSegment.count 1
    Shared.write (nextSegment.account 0) bank.initBalance

/-- One turn of the loop of `alloc_tx`, over one segment of the list; at the end of the list it
adds an account, or takes some away. -/
def allocTurn (trigger : ℕ) (l : AllocLocals) : Prog Tx ℤ (AllocLocals ⊕ Unit) := do
  let segment ← AccountSegment.bind l.start
  let segmentCount ← Shared.readSize segment.count
  let count := l.count + segmentCount
  let segmentNext ← Shared.readSize segment.next
  if segmentNext = 0 then
    if count > trigger ∧ count > 2 then destroyAccount bank l.prev segment segmentCount
    else createAccount bank segment segmentCount
    return .inr ()
  else
    return .inl ⟨segmentNext, count, l.start⟩

/-- `short_tx` looks for the sender in a segment; the flag is a `break`. -/
def findSend (segment : AccountSegment) (segmentCount : ℕ) (l : ShortLocals) :
    Prog Tx ℤ (ShortLocals × Bool) :=
  if l.sendPtr = 0 then
    if l.sendId < segmentCount then
      pure ({ l with sendPtr := segment.account l.sendId }, l.recvPtr != 0)
    else
      .save (.short (l.sendId - segmentCount) l.recvId)
        (pure ({ l with sendId := l.sendId - segmentCount }, false))
  else pure (l, false)

/-- The search for the receiver in one segment, the same as `findSend` with the other index. -/
def findRecv (segment : AccountSegment) (segmentCount : ℕ) (l : ShortLocals) :
    Prog Tx ℤ (ShortLocals × Bool) :=
  if l.recvPtr = 0 then
    if l.recvId < segmentCount then
      pure ({ l with recvPtr := segment.account l.recvId }, l.sendPtr != 0)
    else
      .save (.short l.sendId (l.recvId - segmentCount))
        (pure ({ l with recvId := l.recvId - segmentCount }, false))
  else pure (l, false)

/-- The transfer at the end of `short_tx`. -/
def transfer (sendPtr recvPtr : ℕ) : Prog Tx ℤ Bool := do
  let sendVal ← Shared.read sendPtr
  if sendVal > 0 then
    Shared.write sendPtr (sendVal - 1)
    let recvVal ← Shared.read recvPtr
    Shared.write recvPtr (recvVal + 1)
    return true
  else
    return true

/-- One turn of the loop of `short_tx` over one segment, and what follows a `break`. -/
def shortTurn (l : ShortLocals) : Prog Tx ℤ (ShortLocals ⊕ Bool) := do
  let segment ← AccountSegment.bind l.start
  let segmentCount ← Shared.readSize segment.count
  let (l, found) ← findSend segment segmentCount l
  if found then
    return .inr (← transfer l.sendPtr l.recvPtr)
  else
    let (l, found) ← findRecv segment segmentCount l
    if found then
      return .inr (← transfer l.sendPtr l.recvPtr)
    else
      let start ← Shared.readSize segment.next
      if start = 0 then return .inr false
      else return .inl { l with start }

/-! ## All of them

The five closures as one loop: the locals of any of them, and the turn that they take. A
closure without a loop takes one turn. -/

/-- The locals of a transaction, whichever of the closures it runs. -/
inductive Locals where
  /-- `init` has none -/
  | init
  /-- the check of `init` has none -/
  | initCheck
  /-- those of `long_tx` -/
  | long (l : LongLocals)
  /-- those of `alloc_tx` -/
  | alloc (trigger : ℕ) (l : AllocLocals)
  /-- those of `short_tx` -/
  | short (l : ShortLocals)

/-- The locals a closure starts with, as its first lines set them. -/
def enter : Tx → Locals
  | .init => .init
  | .initCheck => .initCheck
  | .long _ => .long ⟨bank.start, 0, 0⟩
  | .alloc trigger => .alloc trigger ⟨bank.start, 0, 0⟩
  | .short sendId recvId => .short ⟨bank.start, sendId, recvId, 0, 0⟩

/-- One turn of the loop of a transaction, which ends with the value the closure returns,
`none` for `void`. -/
def turn : Locals → Prog Tx ℤ (Locals ⊕ Option Bool)
  | .init => do
    initTx bank
    return .inr none
  | .initCheck => return .inr (some (← initCheckTx bank))
  | .long l => return (← longTurn bank l).map .long some
  | .alloc trigger l => return (← allocTurn bank trigger l).map (.alloc trigger) fun _ => none
  | .short l => return (← shortTurn l).map .short some

/-- A transaction, on a memory that runs it alone. -/
def runTx {M : Type} (mem : Memory M ℤ) (n : ℕ) (tx : Tx) (m : M) :
    Option (Option Bool × Tx × M) :=
  Prog.loop mem (turn bank) n (enter bank tx) tx m

/-- Transactions one after the other: what they returned. -/
def runAll {M : Type} (mem : Memory M ℤ) (n : ℕ) : List Tx → M →
    Option (List (Option Bool) × M)
  | [], m => some ([], m)
  | tx :: txs, m =>
    (runTx bank mem n tx m).bind fun (r, _, m) =>
      (runAll mem n txs m).map fun (rs, m) => (r :: rs, m)

end DualStm
