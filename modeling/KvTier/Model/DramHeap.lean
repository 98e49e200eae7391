import KvTier.Model.Dram

/-!
# The blocks of the DRAM cache

`class_alloc` of `dram.cpp`: a block comes from the free list of its size class, is cut from the
arena at `bump`, or comes from the heap. A free list is the addresses of its blocks. What `malloc`
returns is an argument.
-/

namespace KvTier.Model

/-- `class_cap` (dram.cpp:11-13). -/
def classCaps : List Nat :=
  [4 * 1024, 16 * 1024, 64 * 1024, 256 * 1024, 1024 * 1024, 8 * 1024 * 1024]

/-- `KV_DRAM_N_CLASSES`. -/
def dramNClasses : Nat := 6

/-- `class_cap[cls]`. -/
def classCap (cls : Nat) : Nat := classCaps.getD cls 0

/-- `pick_class` (dram.cpp:88-93). -/
def pickClass (total : Nat) : Nat := classCaps.findIdx fun cap => decide (total ≤ cap)

/-- The fields of `dram_cache` that allocation uses (dram.hpp:64-82). -/
structure DramHeap where
  arena : Nat
  arenaLen : Nat
  bump : Nat
  freelists : Nat → List Nat

/-- `class_alloc` (dram.cpp:95-113): the block and its size, when `malloc` returns `heap`. -/
def DramHeap.classAlloc (d : DramHeap) (cls total : Nat) (heap : Option Nat) :
    DramHeap × Option (Nat × Nat) :=
  if cls < dramNClasses then
    match d.freelists cls with
    | p :: rest =>
      ({ d with freelists := Function.update d.freelists cls rest }, some (p, classCap cls))
    | [] =>
      if d.bump + classCap cls ≤ d.arenaLen then
        ({ d with bump := d.bump + classCap cls }, some (d.arena + d.bump, classCap cls))
      else (d, heap.map (·, classCap cls))
  else (d, heap.map (·, total))

/-- The block `dram_put` gets for a payload (dram.cpp:326-327). -/
def DramHeap.putBlock (d : DramHeap) (r : ReadResult) (heap : Option Nat) : Option (Nat × Nat) :=
  (d.classAlloc (pickClass (entryTotal r)) (entryTotal r) heap).2

/-- The checks of `dram_put` (dram.cpp:304-306). -/
def DramCache.Admits (d : DramCache) (r : ReadResult) : Prop :=
  ¬ (r.buf.length = 0 ∨ d.entryMax < entryTotal r ∨ d.budget < entryTotal r)

end KvTier.Model
