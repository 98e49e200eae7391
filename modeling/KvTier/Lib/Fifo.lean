import KvTier.Lib.Runs

/-!
# Bounded queues

A queue with room for `cap` items, and logs of what went in and what came out. An item goes in only
while there is room, and the oldest one comes out.
-/

namespace KvTier.Lib

/-- A queue and its logs. -/
structure Fifo (α : Type) where
  cap : Nat
  items : List α
  ins : List α
  outs : List α

namespace Fifo

variable {α : Type}

/-- The empty queue. -/
def empty (cap : Nat) : Fifo α := ⟨cap, [], [], []⟩

/-- An item goes in, if there is room. -/
def enqueue (q : Fifo α) (x : α) : Option (Fifo α) :=
  if q.items.length < q.cap then some { q with items := q.items ++ [x], ins := q.ins ++ [x] }
  else none

/-- The oldest item comes out. -/
def dequeue (q : Fifo α) : Option (Fifo α) :=
  match q.items with
  | [] => none
  | x :: xs => some { q with items := xs, outs := q.outs ++ [x] }

/-- What went in is what came out and what is inside. -/
structure Ok (q : Fifo α) : Prop where
  log : q.ins = q.outs ++ q.items
  room : q.items.length ≤ q.cap

theorem Ok.empty (cap : Nat) : Ok (empty cap : Fifo α) := ⟨rfl, Nat.zero_le _⟩

theorem Ok.enqueue {q q' : Fifo α} {x : α} (h : q.Ok) (hs : q.enqueue x = some q') : q'.Ok := by
  unfold Fifo.enqueue at hs
  split at hs
  · rename_i hroom
    cases hs
    refine ⟨?_, ?_⟩
    · simp only [h.log, List.append_assoc]
    · rw [List.length_append, List.length_singleton]
      exact hroom
  · cases hs

theorem Ok.dequeue {q q' : Fifo α} (h : q.Ok) (hs : q.dequeue = some q') : q'.Ok := by
  have hlog := h.log
  have hroom := h.room
  unfold Fifo.dequeue at hs
  cases hi : q.items with
  | nil => simp [hi] at hs
  | cons x xs =>
    rw [hi] at hs hlog hroom
    cases hs
    refine ⟨?_, ?_⟩
    · simp only [hlog, List.append_assoc, List.singleton_append]
    · exact Nat.le_of_succ_le hroom

/-- One operation, or none. -/
inductive Step (q : Fifo α) : Fifo α → Prop
  | stutter : Step q q
  | enqueue (x : α) {q' : Fifo α} (h : q.enqueue x = some q') : Step q q'
  | dequeue {q' : Fifo α} (h : q.dequeue = some q') : Step q q'

theorem Step.ok {q q' : Fifo α} (h : Step q q') (hq : q.Ok) : q'.Ok := by
  cases h with
  | stutter => exact hq
  | enqueue x hs => exact hq.enqueue hs
  | dequeue hs => exact hq.dequeue hs

theorem invariant_of_simulation {σ ℓ : Type} {step : σ → ℓ → Option σ} {ok : σ → ℓ → Prop}
    (abs : σ → Fifo α) (Inv : σ → Prop)
    (hinv : ∀ s l s', Inv s → ok s l → step s l = some s' → Inv s')
    (hsim : ∀ s l s', Inv s → ok s l → step s l = some s' → Step (abs s) (abs s'))
    {s s' : σ} {ls : List ℓ} (hrun : RunOf step ok s ls s') (hs : Inv s) (hq : (abs s).Ok) :
    Inv s' ∧ (abs s').Ok := by
  refine RunOf.invariant (fun s => Inv s ∧ (abs s).Ok) ?_ hrun ⟨hs, hq⟩
  rintro s l s' ⟨hs, hq⟩ hok hstep
  exact ⟨hinv s l s' hs hok hstep, (hsim s l s' hs hok hstep).ok hq⟩

end Fifo

end KvTier.Lib
