import Mathlib.Logic.Function.Basic
import Mathlib.Data.Nat.Bitwise

/-!
# The shard queue

`mpsc_push` and `mpsc_pop` (writer.cpp:17-68) on the ring of a shard writer, with any number of
producers and one consumer.
-/

namespace KvTier.Model

/-- `kv_mpsc_slot` (writer.hpp:22-25). -/
structure MpscSlot (α : Type) where
  seq : Nat
  ptr : Option α
deriving DecidableEq, Repr

/-- `kv_mpsc_ring` (writer.hpp:27-33). -/
structure MpscRing (α : Type) where
  slots : Nat → MpscSlot α
  mask : Nat
  tail : Nat
  head : Nat

/-- `mpsc_init` (writer.cpp:17-31): at least 16 slots. -/
def mpscInit (α : Type) (power : Nat) : MpscRing α where
  slots i := ⟨i, none⟩
  mask := 2 ^ max power 4 - 1
  tail := 0
  head := 0

/-- Where a producer is in `mpsc_push` (writer.cpp:38-55). -/
inductive PushPc (α : Type) where
  /-- Not in a call. -/
  | idle
  /-- At the top of the loop. -/
  | start (ptr : α)
  /-- `tail` is loaded. -/
  | read (ptr : α) (tail : Nat)
  /-- `seq` is loaded, and `diff` was 0. -/
  | ready (ptr : α) (tail : Nat)
  /-- The compare-exchange succeeded. -/
  | claimed (ptr : α) (tail : Nat)
  /-- `ptr` is stored. -/
  | stored (ptr : α) (tail : Nat)
deriving DecidableEq, Repr

/-- Where the consumer is in `mpsc_pop` (writer.cpp:57-68). -/
inductive PopPc (α : Type) where
  /-- Not in a call. -/
  | idle
  /-- `head` is loaded. -/
  | read (head : Nat)
  /-- `seq` is loaded, and the slot is full. -/
  | ready (head : Nat)
  /-- `ptr` is loaded. -/
  | taken (head : Nat) (ptr : Option α)
  /-- `seq` is stored. -/
  | freed (head : Nat) (ptr : Option α)
deriving DecidableEq, Repr

/-- The ring, its threads, and the history: the pointers pushed, in the order of the successful
compare-exchanges, and the pointers popped. -/
structure ShardQueue (ι α : Type) where
  ring : MpscRing α
  push : ι → PushPc α
  pop : PopPc α
  claims : List α
  popped : List (Option α)

/-- The next step of some thread. -/
inductive QueueLabel (ι α : Type) where
  /-- A producer calls `mpsc_push`. -/
  | call (i : ι) (ptr : α)
  | loadTail (i : ι)
  | loadSeq (i : ι)
  /-- The compare-exchange is a weak one: it may fail for no reason. -/
  | cas (i : ι) (spurious : Bool)
  | storePtr (i : ι)
  | storeSeq (i : ι)
  /-- The consumer calls `mpsc_pop` and loads `head`. -/
  | popHead
  | popSeq
  | popPtr
  | popStoreSeq
  | popStoreHead
deriving DecidableEq, Repr

namespace ShardQueue

variable {ι α : Type} [DecidableEq ι]

/-- The queue after `mpsc_init`. -/
def init (ι α : Type) (power : Nat) : ShardQueue ι α :=
  ⟨mpscInit α power, fun _ => .idle, .idle, [], []⟩

omit [DecidableEq ι] in
/-- The slot of a position: `slots[pos & mask]`. -/
def slot (s : ShardQueue ι α) (pos : Nat) : MpscSlot α := s.ring.slots (pos &&& s.ring.mask)

omit [DecidableEq ι] in
/-- Overwrite the slot of a position. -/
def setSlot (s : ShardQueue ι α) (pos : Nat) (x : MpscSlot α) : ShardQueue ι α :=
  { s with ring := { s.ring with
      slots := Function.update s.ring.slots (pos &&& s.ring.mask) x } }

/-- A producer goes on. -/
def setPush (s : ShardQueue ι α) (i : ι) (pc : PushPc α) : ShardQueue ι α :=
  { s with push := Function.update s.push i pc }

omit [DecidableEq ι] in
/-- `diff` (writer.cpp:44) of a producer that has loaded `tail`. -/
def diff (s : ShardQueue ι α) (tail : Nat) : Int := (s.slot tail).seq - tail

/-- One step; `none` if the thread is elsewhere. -/
def step (s : ShardQueue ι α) : QueueLabel ι α → Option (ShardQueue ι α)
  | .call i ptr =>
    match s.push i with
    | .idle => some (s.setPush i (.start ptr))
    | _ => none
  | .loadTail i =>
    match s.push i with
    | .start ptr => some (s.setPush i (.read ptr s.ring.tail))
    | _ => none
  | .loadSeq i =>
    match s.push i with
    | .read ptr tail =>
      if s.diff tail = 0 then some (s.setPush i (.ready ptr tail))
      -- `-KV_EFULL`
      else if s.diff tail < 0 then some (s.setPush i .idle)
      else some (s.setPush i (.start ptr))
    | _ => none
  | .cas i spurious =>
    match s.push i with
    | .ready ptr tail =>
      if s.ring.tail = tail ∧ spurious = false then
        some { s.setPush i (.claimed ptr tail) with
          ring := { s.ring with tail := tail + 1 }
          claims := s.claims ++ [ptr] }
      else some (s.setPush i (.start ptr))
    | _ => none
  | .storePtr i =>
    match s.push i with
    | .claimed ptr tail =>
      some ((s.setSlot tail { s.slot tail with ptr := some ptr }).setPush i (.stored ptr tail))
    | _ => none
  | .storeSeq i =>
    match s.push i with
    | .stored _ tail =>
      some ((s.setSlot tail { s.slot tail with seq := tail + 1 }).setPush i .idle)
    | _ => none
  | .popHead =>
    match s.pop with
    | .idle => some { s with pop := .read s.ring.head }
    | _ => none
  | .popSeq =>
    match s.pop with
    | .read head =>
      -- anything else than a full slot is an empty queue
      if (s.slot head).seq = head + 1 then some { s with pop := .ready head }
      else some { s with pop := .idle }
    | _ => none
  | .popPtr =>
    match s.pop with
    | .ready head => some { s with pop := .taken head (s.slot head).ptr }
    | _ => none
  | .popStoreSeq =>
    match s.pop with
    | .taken head ptr =>
      some { s.setSlot head { s.slot head with seq := head + s.ring.mask + 1 } with
        pop := .freed head ptr }
    | _ => none
  | .popStoreHead =>
    match s.pop with
    | .freed head ptr =>
      some { s with
        ring := { s.ring with head := head + 1 }
        pop := .idle
        popped := s.popped ++ [ptr] }
    | _ => none

end ShardQueue

end KvTier.Model
