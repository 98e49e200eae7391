import Mathlib.Data.List.TakeWhile
import KvTier.Lib.Runs
import KvTier.Lib.SecondChance
import KvTier.Analysis.DramFacts

/-!
# The budgets of the DRAM cache

A shard's queue read from the hand on is a ring, and a turn of `sieve_evict` is a turn of a hand
that gives second chances: the entry just put is kept (`sieveStep_ring`).
-/

namespace KvTier.Analysis

open Function KvTier.Lib KvTier.Model List

/-! ## The ring -/

/-- The queue from the hand on. -/
def ringOf (sh : DramShard) : List DramEntry :=
  match sh.hand with
  | none => sh.queue
  | some h => sh.queue.dropWhile (·.key != h) ++ sh.queue.takeWhile (·.key != h)

/-- The second-chance rule of `sieve_evict`. -/
def sieve (protect : DramKey) : SecondChance DramEntry where
  kept e := decide (e.key = protect)
  visited e := e.visited
  clear e := { e with visited := false }
  size e := entryTotal e.data
  kept_clear _ := rfl
  visited_clear _ := rfl
  size_clear _ := rfl

section Ring

variable {sh : DramShard} {a b : List DramEntry} {e : DramEntry}

theorem cut_at_key (h : ((a ++ e :: b).map (·.key)).Nodup) :
    (a ++ e :: b).dropWhile (·.key != e.key) = e :: b ∧
      (a ++ e :: b).takeWhile (·.key != e.key) = a := by
  have hne : ∀ x ∈ a, (x.key != e.key) = true := by
    intro x hx
    rw [map_append, map_cons] at h
    have := (nodup_append.1 h).2.2 x.key (mem_map_of_mem hx) e.key (by simp)
    simpa using this
  refine ⟨?_, ?_⟩
  · rw [dropWhile_append_of_pos hne, dropWhile_cons_of_neg (by simp)]
  · rw [takeWhile_append_of_pos hne, takeWhile_cons_of_neg (by simp), List.append_nil]

variable (hok : DramShardOk sh)
include hok

theorem next_of_split (hq : sh.queue = a ++ e :: b) :
    sh.next e.key = b.head?.map (·.key) := by
  unfold DramShard.next
  rw [hq, (cut_at_key (hq ▸ hok)).1, drop_one, tail_cons]

theorem ringOf_split (hq : sh.queue = a ++ b) (hhand : sh.hand = b.head?.map (·.key)) :
    ringOf sh = b ++ a := by
  unfold ringOf
  rw [hhand, hq]
  cases b with
  | nil => simp
  | cons e b =>
    simp only [List.head?_cons, Option.map_some]
    have hnodup : ((a ++ e :: b).map (·.key)).Nodup := hq ▸ hok
    obtain ⟨hdrop, htake⟩ := cut_at_key hnodup
    rw [hdrop, htake]

theorem turn_of_ring (hne : sh.queue ≠ []) :
    ∃ a e b, sh.queue = a ++ e :: b ∧ ringOf sh = e :: (b ++ a) ∧
      (sh.hand.bind sh.find <|> sh.queue.head?) = some e := by
  obtain ⟨e₀, q, hq⟩ := exists_cons_of_ne_nil hne
  have hhead : ringOf sh = sh.queue → sh.hand.bind sh.find = none →
      ∃ a e b, sh.queue = a ++ e :: b ∧ ringOf sh = e :: (b ++ a) ∧
        (sh.hand.bind sh.find <|> sh.queue.head?) = some e := by
    intro hring hnone
    exact ⟨[], e₀, q, hq, by rw [hring, hq, List.append_nil], by rw [hnone, hq]; rfl⟩
  cases hhand : sh.hand with
  | none =>
    rw [hhand] at hhead
    exact hhead (by unfold ringOf; rw [hhand]) rfl
  | some h =>
    cases hfind : sh.find h with
    | none =>
      -- a hand that points to no entry is as good as none
      rw [hhand] at hhead
      refine hhead ?_ hfind
      have hall : ∀ x ∈ sh.queue, (x.key != h) = true := by
        intro x hx
        have := List.find?_eq_none.1 hfind x hx
        simpa using this
      unfold ringOf
      rw [hhand]
      simp only
      rw [dropWhile_eq_nil_iff.2 hall, takeWhile_eq_self_iff.2 hall, nil_append]
    | some e =>
      obtain ⟨hkey, a, b, hsplit, -⟩ := List.find?_eq_some_iff_append.1 hfind
      have hkey : h = e.key := by simpa using (beq_iff_eq.1 hkey).symm
      refine ⟨a, e, b, hsplit, ?_, ?_⟩
      · rw [← cons_append]
        exact ringOf_split hok hsplit (by rw [hhand, hkey]; rfl)
      · rw [Option.bind_some, hfind]
        rfl

theorem queue_remove (hq : sh.queue = a ++ e :: b) :
    (sh.remove e).queue = a ++ b := by
  have hnodup : ((a ++ e :: b).map (·.key)).Nodup := hq ▸ hok
  rw [map_append, map_cons] at hnodup
  obtain ⟨-, hcons, hdisj⟩ := nodup_append.1 hnodup
  have ha : a.filter (fun x => x.key != e.key) = a := by
    refine filter_eq_self.2 fun x hx => ?_
    simpa using hdisj x.key (mem_map_of_mem hx) e.key (by simp)
  have hb : b.filter (fun x => x.key != e.key) = b := by
    refine filter_eq_self.2 fun x hx => ?_
    have hne : e.key ≠ x.key := fun h => (nodup_cons.1 hcons).1 (h ▸ mem_map_of_mem hx)
    simpa using hne.symm
  rw [DramShard.remove, hq, filter_append, filter_cons_of_neg (by simp), ha, hb]

theorem queue_setVisited (hq : sh.queue = a ++ e :: b) (v : Bool) :
    (sh.setVisited e.key v).queue = a ++ { e with visited := v } :: b := by
  have hnodup : ((a ++ e :: b).map (·.key)).Nodup := hq ▸ hok
  rw [map_append, map_cons] at hnodup
  obtain ⟨-, hcons, hdisj⟩ := nodup_append.1 hnodup
  have hsame : ∀ l : List DramEntry, (∀ x ∈ l, x.key ≠ e.key) →
      l.map (fun x => if x.key = e.key then { x with visited := v } else x) = l := by
    intro l hl
    refine (map_congr_left fun x hx => if_neg (hl x hx)).trans (map_id _)
  rw [DramShard.setVisited, hq, map_append, map_cons, if_pos rfl,
    hsame a fun x hx => hdisj x.key (mem_map_of_mem hx) e.key (by simp),
    hsame b fun x hx h => (nodup_cons.1 hcons).1 (h ▸ mem_map_of_mem hx)]

/-- A turn of the sieve is a turn of the ring. -/
theorem sieveStep_ring (hne : sh.queue ≠ []) (protect : DramKey) :
    ∃ e l, ringOf sh = e :: l ∧
      ringOf (sh.sieveStep protect) = (sieve protect).turn (e :: l) ∧
      (sh.sieveStep protect).bytes = sh.bytes - (sieve protect).frees e := by
  obtain ⟨a, e, b, hq, hring, hturn⟩ := turn_of_ring hok hne
  have hnext := next_of_split hok hq
  refine ⟨e, b ++ a, hring, ?_⟩
  unfold DramShard.sieveStep
  rw [hturn]
  simp only
  by_cases hk : e.key = protect
  · obtain ⟨hto, hfrees⟩ :=
      SecondChance.turn_kept (show (sieve protect).kept e = true from decide_eq_true hk) (b ++ a)
    rw [if_pos hk, hto, hfrees, List.append_assoc]
    exact ⟨ringOf_split hok (by rw [hq, append_cons]) hnext, rfl⟩
  have hkept : (sieve protect).kept e = false := decide_eq_false hk
  rw [if_neg hk]
  cases hv : e.visited with
  | true =>
    obtain ⟨hto, hfrees⟩ := SecondChance.turn_visited hkept hv (b ++ a)
    have hqueue := queue_setVisited hok hq false
    rw [append_cons] at hqueue
    rw [if_pos rfl, hto, hfrees, List.append_assoc]
    exact ⟨ringOf_split (hok.setVisited e.key false) hqueue hnext, rfl⟩
  | false =>
    obtain ⟨hto, hfrees⟩ := SecondChance.turn_freed hkept hv (b ++ a)
    rw [if_neg Bool.false_ne_true, hto, hfrees]
    exact ⟨ringOf_split (hok.remove e) (queue_remove hok hq) hnext, rfl⟩

end Ring

/-! ## The bytes of a shard -/

/-- The counter of a shard is the sum of its entries. -/
structure ShardCounted (sh : DramShard) : Prop where
  keys : DramShardOk sh
  bytes : sh.bytes = (sh.queue.map fun e => entryTotal e.data).sum

namespace ShardCounted

variable {sh : DramShard}

variable (h : ShardCounted sh)
include h

theorem le_bytes {e : DramEntry} (he : e ∈ sh.queue) :
    entryTotal e.data ≤ sh.bytes := by
  rw [h.bytes]
  exact le_sum_of_mem (mem_map_of_mem he)

theorem remove {e : DramEntry} (he : e ∈ sh.queue) :
    ShardCounted (sh.remove e) := by
  refine ⟨h.keys.remove e, ?_⟩
  obtain ⟨a, b, hq⟩ := append_of_mem he
  rw [queue_remove h.keys hq]
  show sh.bytes - entryTotal e.data = _
  rw [h.bytes, hq, map_append, map_cons, map_append, sum_append, sum_cons, sum_append]
  omega

theorem setVisited (k : DramKey) (v : Bool) :
    ShardCounted (sh.setVisited k v) := by
  refine ⟨h.keys.setVisited k v, ?_⟩
  show sh.bytes = _
  rw [h.bytes, DramShard.setVisited, map_map]
  congr 1
  refine map_congr_left fun e _ => ?_
  simp only [Function.comp]
  split <;> rfl

theorem invalidate (k : DramKey) : ShardCounted (sh.invalidate k) := by
  unfold DramShard.invalidate
  split
  · exact h
  · rename_i hfind
    exact h.remove (List.mem_of_find?_eq_some hfind)

theorem insert {e : DramEntry} (he : ∀ x ∈ sh.queue, x.key ≠ e.key) :
    ShardCounted (sh.insert e) := by
  refine ⟨h.keys.insert he, ?_⟩
  show sh.bytes + entryTotal e.data = _
  rw [h.bytes, DramShard.insert, map_append, sum_append, map_singleton, sum_singleton]

theorem sieveStep (k : DramKey) : ShardCounted (sh.sieveStep k) :=
  sieveStep_keeps k (fun _ _ he _ h => h.remove he) (fun _ k v h => h.setVisited k v)
    (fun _ _ h => ⟨h.keys, h.bytes⟩) h

theorem sieveEvict (k : DramKey) : ShardCounted (sh.sieveEvict k) :=
  sieveEvict_keeps k (fun _ _ he _ h => h.remove he) (fun _ k v h => h.setVisited k v)
    (fun _ _ h => ⟨h.keys, h.bytes⟩) h

end ShardCounted

/-- The loop ends within the budget exactly if its turns free enough. -/
theorem sieveLoop_le_iff {sh : DramShard} (h : ShardCounted sh) (protect : DramKey) (n : Nat) :
    (DramShard.sieveLoop protect n sh).bytes ≤ sh.budget ↔
      sh.bytes ≤ sh.budget + (sieve protect).freed n (ringOf sh) := by
  induction n generalizing sh with
  | zero => exact Iff.rfl
  | succ n ih =>
    unfold DramShard.sieveLoop
    by_cases hgo : sh.budget < sh.bytes ∧ sh.queue ≠ []
    · have hbudget : (sh.sieveStep protect).budget = sh.budget :=
        sieveStep_keeps (P := fun x => x.budget = sh.budget) protect (fun _ _ _ _ h => h)
          (fun _ _ _ h => h) (fun _ _ h => h) rfl
      obtain ⟨e, l, hring, hturn, hbytes⟩ := sieveStep_ring h.keys hgo.2 protect
      have hle := ih (h.sieveStep protect)
      rw [hbudget, hbytes, hturn] at hle
      rw [if_pos hgo, hle, hring, SecondChance.freed]
      -- what the turn frees was counted
      have hfrees : (sieve protect).frees e ≤ sh.bytes := by
        have hmem : e ∈ sh.queue := by
          obtain ⟨a, e', b, hq, hring', -⟩ := turn_of_ring h.keys hgo.2
          rw [hring, List.cons.injEq] at hring'
          rw [hq, hring'.1]
          simp
        refine le_trans ?_ (h.le_bytes hmem)
        unfold SecondChance.frees
        split
        · exact Nat.zero_le _
        · exact le_refl _
      omega
    rw [if_neg hgo]
    have hle : sh.bytes ≤ sh.budget := by
      by_contra hgt
      have hnil : sh.queue = [] := by
        by_contra hne
        exact hgo ⟨by omega, hne⟩
      have hzero := h.bytes
      rw [hnil] at hzero
      simp only [map_nil, sum_nil] at hzero
      omega
    exact ⟨fun _ => by omega, fun _ => hle⟩

theorem sieveEvict_le_iff {sh : DramShard} (h : ShardCounted sh) (protect : DramKey) :
    (sh.sieveEvict protect).bytes ≤ sh.budget ↔
      sh.bytes ≤ sh.budget + (((sieve protect).turns (ringOf sh)).take 4096).sum := by
  have hbytes : (sh.sieveEvict protect).bytes = (DramShard.sieveLoop protect 4096 sh).bytes := by
    unfold DramShard.sieveEvict
    simp only
    split <;> rfl
  rw [hbytes, sieveLoop_le_iff h, SecondChance.freed_eq]

/-! ## The cache -/

/-- No shard is above its budget. -/
def WithinBudget (d : DramCache) : Prop :=
  ∀ i < d.nShards, (d.shards i).bytes ≤ (d.shards i).budget

/-- The bytes of all shards. -/
def dramBytes (d : DramCache) : Nat := ∑ i ∈ Finset.range d.nShards, (d.shards i).bytes

/-- 4096 turns of the hand can free what a stored entry is over the budget. -/
def CallFits (d : DramCache) : DramCall → Prop
  | .put k ver expireTs r alloc => PutStores d k ver r alloc →
      (putShard d k ver expireTs r).bytes ≤ (putShard d k ver expireTs r).budget +
        (((sieve k).turns (ringOf (putShard d k ver expireTs r))).take 4096).sum
  | .get .. => True
  | .invalidate _ => True

/-- What holds of the shards throughout. -/
structure DramCounted (d : DramCache) : Prop where
  shards : ∀ i, ShardCounted (d.shards i)
  pos : 0 < d.nShards
  budget : ∀ i, (d.shards i).budget = d.budget / d.nShards

theorem budget_invalidate (sh : DramShard) (k : DramKey) : (sh.invalidate k).budget = sh.budget := by
  unfold DramShard.invalidate
  split <;> rfl

theorem budget_sieveEvict (sh : DramShard) (k : DramKey) : (sh.sieveEvict k).budget = sh.budget :=
  sieveEvict_keeps (P := fun x => x.budget = sh.budget) k (fun _ _ _ _ h => h) (fun _ _ _ h => h)
    (fun _ _ h => h) rfl

theorem bytes_invalidate_le (sh : DramShard) (k : DramKey) :
    (sh.invalidate k).bytes ≤ sh.bytes := by
  unfold DramShard.invalidate
  split
  · exact le_refl _
  · exact Nat.sub_le _ _

namespace DramCounted

variable {d d' : DramCache}

theorem init {budget entryMax : Nat} (h : dramInit budget entryMax = some d) :
    DramCounted d ∧ WithinBudget d ∧ d.budget = budget := by
  have hpos : ∀ n, 0 < dramShardCount budget n := by
    intro n
    induction n with
    | zero => exact Nat.one_pos
    | succ n ih =>
      unfold dramShardCount
      split
      · exact ih
      · exact Nat.two_pow_pos _
  unfold dramInit at h
  split at h
  · cases h
  · cases h
    exact ⟨⟨fun i => ⟨nodup_nil, rfl⟩, hpos 6, fun i => rfl⟩, fun i _ => Nat.zero_le _, rfl⟩

variable (h : DramCounted d)
include h

theorem shardOf_lt (k : DramKey) : d.shardOf k < d.nShards :=
  Nat.mod_lt _ h.pos

theorem update (k : DramKey) {sh : DramShard} (hsh : ShardCounted sh)
    (hbudget : sh.budget = (d.shards (d.shardOf k)).budget) : DramCounted (d.update k sh) :=
  ⟨forall_update h.shards k hsh, h.pos,
    forall_update (P := fun sh => sh.budget = d.budget / d.nShards) h.budget k
      (hbudget.trans (h.budget _))⟩

theorem putShard (k : DramKey) (ver expireTs : Nat) (r : ReadResult) :
    ShardCounted (putShard d k ver expireTs r) :=
  ((h.shards _).invalidate k).insert fun _ hx => key_invalidate _ hx

theorem step {c : DramCall} (hstep : d.step c = some d') :
    DramCounted d' ∧ d'.budget = d.budget := by
  have hinv : ∀ k, DramCounted (d.invalidate k) := fun k =>
    h.update k ((h.shards _).invalidate k) (budget_invalidate _ k)
  cases c with
  | put k ver expireTs r alloc =>
    rcases put_stores hstep with ⟨-, rfl⟩ | ⟨-, rfl | rfl⟩
    · refine ⟨h.update k ((h.putShard k ver expireTs r).sieveEvict k) ?_, rfl⟩
      rw [budget_sieveEvict]
      exact budget_invalidate _ k
    · exact ⟨h, rfl⟩
    · exact ⟨hinv k, rfl⟩
  | get k expectVer now alloc =>
    cases hstep
    rcases get_cases d k expectVer now alloc with he | ⟨e, _, _, _, _, he⟩
    · rw [he]
      exact ⟨h, rfl⟩
    · rw [he]
      exact ⟨h.update k ((h.shards _).setVisited k true) rfl, rfl⟩
  | invalidate k =>
    cases hstep
    exact ⟨hinv k, rfl⟩

theorem withinBudget_update_iff (hw : WithinBudget d) (k : DramKey) (sh : DramShard) :
    WithinBudget (d.update k sh) ↔ sh.bytes ≤ sh.budget := by
  constructor
  · intro hall
    have hk := hall (d.shardOf k) (h.shardOf_lt k)
    simp only [DramCache.update, update_self] at hk
    exact hk
  intro hle i hi
  by_cases hik : i = d.shardOf k
  · subst hik
    simpa only [DramCache.update, update_self] using hle
  · simpa only [DramCache.update, update_of_ne hik] using hw i hi

/-- A call stays within the budget exactly if its evictions can. -/
theorem withinBudget_step_iff (hw : WithinBudget d) {c : DramCall} (hstep : d.step c = some d') :
    WithinBudget d' ↔ CallFits d c := by
  have hinv : ∀ k, WithinBudget (d.invalidate k) := by
    intro k
    refine (h.withinBudget_update_iff hw k _).2 ?_
    rw [budget_invalidate]
    exact (bytes_invalidate_le _ k).trans (hw _ (h.shardOf_lt k))
  cases c with
  | put k ver expireTs r alloc =>
    rcases put_stores hstep with ⟨hst, rfl⟩ | ⟨hst, rfl | rfl⟩
    · rw [h.withinBudget_update_iff hw, budget_sieveEvict]
      refine (sieveEvict_le_iff (h.putShard k ver expireTs r) k).trans ?_
      exact ⟨fun hle _ => hle, fun hfits => hfits hst⟩
    · exact ⟨fun _ hst' => absurd hst' hst, fun _ => hw⟩
    · exact ⟨fun _ hst' => absurd hst' hst, fun _ => hinv k⟩
  | get k expectVer now alloc =>
    cases hstep
    refine ⟨fun _ => trivial, fun _ => ?_⟩
    rcases get_cases d k expectVer now alloc with he | ⟨e, _, _, _, _, he⟩
    · rw [he]
      exact hw
    · rw [he]
      exact (h.withinBudget_update_iff hw k _).2 (hw _ (h.shardOf_lt k))
  | invalidate k =>
    cases hstep
    exact ⟨fun _ => trivial, fun _ => hinv k⟩

theorem dramBytes_le (hw : WithinBudget d) : dramBytes d ≤ d.budget := by
  have hle : dramBytes d ≤ ∑ _i ∈ Finset.range d.nShards, d.budget / d.nShards :=
    Finset.sum_le_sum fun i hi => h.budget i ▸ hw i (Finset.mem_range.1 hi)
  rw [Finset.sum_const, Finset.card_range, smul_eq_mul] at hle
  exact hle.trans (Nat.mul_div_le _ _)

end DramCounted

theorem ringOf_perm (sh : DramShard) : (ringOf sh).Perm sh.queue := by
  unfold ringOf
  split
  · exact .refl _
  · rename_i h _
    exact perm_append_comm.trans
      (Perm.of_eq (takeWhile_append_dropWhile (p := (·.key != h)) (l := sh.queue)))

theorem callFits_of_few {d : DramCache} (h : DramCounted d) {k : DramKey} {ver expireTs : Nat}
    {r : ReadResult} {alloc : Bool} (hfew : (d.shards (d.shardOf k)).queue.length < 2048) :
    CallFits d (.put k ver expireTs r alloc) ↔
      (PutStores d k ver r alloc → entryTotal r ≤ d.budget / d.nShards) := by
  have hbudget : (putShard d k ver expireTs r).budget = d.budget / d.nShards :=
    (budget_invalidate _ k).trans (h.budget _)
  have hshort : ((d.shards (d.shardOf k)).invalidate k).queue.length < 2048 := by
    unfold DramShard.invalidate
    split
    · exact hfew
    · exact lt_of_le_of_lt (length_filter_le _ _) hfew
  have hlen : ((sieve k).turns (ringOf (putShard d k ver expireTs r))).length ≤ 4096 := by
    have hring := (ringOf_perm (putShard d k ver expireTs r)).length_eq
    have hfilter := length_filter_le (sieve k).stays (ringOf (putShard d k ver expireTs r))
    simp only [putShard, DramShard.insert, length_append, length_singleton] at hring
    simp only [SecondChance.turns, length_append, length_map]
    simp only [putShard, DramShard.insert] at hfilter ⊢
    omega
  -- two rounds free every entry but the new one
  have hsum : ((sieve k).turns (ringOf (putShard d k ver expireTs r))).sum + entryTotal r =
      (putShard d k ver expireTs r).bytes := by
    have hothers : ∀ e ∈ ((d.shards (d.shardOf k)).invalidate k).queue,
        (sieve k).freesNext e = entryTotal e.data := by
      intro e he
      have hne : e.key ≠ k := key_invalidate _ he
      simp [SecondChance.freesNext, sieve, hne]
    rw [SecondChance.sum_turns, ((ringOf_perm _).map _).sum_eq]
    simp only [putShard, DramShard.insert, map_append, sum_append, map_singleton, sum_singleton]
    rw [map_congr_left hothers, ((h.shards _).invalidate k).bytes]
    simp [SecondChance.freesNext, sieve]
  simp only [CallFits]
  rw [take_of_length_le hlen, hbudget]
  refine imp_congr_right fun _ => ?_
  omega

theorem entryTotal_le_of_stores {d : DramCache} (h : DramCounted d) (k : DramKey)
    (ver expireTs : Nat) (r : ReadResult) :
    entryTotal r ≤ ((putShard d k ver expireTs r).sieveEvict k).bytes := by
  have hstays : ∃ e ∈ ((putShard d k ver expireTs r).sieveEvict k).queue,
      e.key = k ∧ e.data = r := by
    refine sieveEvict_keeps (P := fun sh => ∃ e ∈ sh.queue, e.key = k ∧ e.data = r) k ?_ ?_
      (fun _ _ h => h) ?_
    · rintro sh x - hx ⟨e, he, hkey, hdata⟩
      refine ⟨e, mem_filter.2 ⟨he, ?_⟩, hkey, hdata⟩
      rw [hkey]
      simpa using hx.symm
    · rintro sh k' v ⟨e, he, hkey, hdata⟩
      refine ⟨_, mem_map_of_mem he, ?_⟩
      split
      · exact ⟨hkey, hdata⟩
      · exact ⟨hkey, hdata⟩
    · exact ⟨_, mem_append_right _ (mem_singleton_self _), rfl, rfl⟩
  obtain ⟨e, he, -, rfl⟩ := hstays
  exact ((h.putShard k ver expireTs e.data).sieveEvict k).le_bytes he

/-- When the budget is enforced. In every run from `dram_init` all shards are within their budgets
in every state iff every put that stores an entry can evict enough within 4096 turns; and with all
shards within their budgets the cache is. -/
theorem dram_budget_iff {budget entryMax : Nat} {d₀ d : DramCache}
    (hinit : dramInit budget entryMax = some d₀) {cs : List DramCall}
    (hrun : RunOf DramCache.step (fun _ _ => True) d₀ cs d) :
    ((RunOf DramCache.step (fun d _ => WithinBudget d) d₀ cs d ∧ WithinBudget d) ↔
      RunOf DramCache.step CallFits d₀ cs d) ∧
      (WithinBudget d → dramBytes d ≤ budget) := by
  obtain ⟨hcounted, hwithin, hbudget⟩ := DramCounted.init hinit
  refine ⟨?_, fun hw => ?_⟩
  · exact hrun.always_iff (I := DramCounted) (fun _ _ _ h _ hstep => (h.step hstep).1)
      (fun _ _ _ h _ hw hstep => h.withinBudget_step_iff hw hstep) hcounted hwithin
  have hend := hrun.invariant (fun d => DramCounted d ∧ d.budget = budget)
    (fun _ _ _ h _ hstep => ⟨(h.1.step hstep).1, (h.1.step hstep).2.trans h.2⟩)
    ⟨hcounted, hbudget⟩
  exact hend.2 ▸ hend.1.dramBytes_le hw

/-- A put of one byte. -/
def byteEntry (p : UInt64) : DramCall := .put (p, 0) 1 0 ⟨[7], []⟩ true

/-- The second of two entries evicts the first. -/
theorem dram_budget_evicts :
    ∃ d₀ d₁ d, dramInit 100 0 = some d₀ ∧ d₀.step (byteEntry 1) = some d₁ ∧
      d₁.step (byteEntry 2) = some d ∧ ((d₁.shards 0).queue.map (·.key)) = [(1, 0)] ∧
      ((d.shards 0).queue.map (·.key)) = [(2, 0)] ∧ WithinBudget d ∧ dramBytes d ≤ 100 := by
  have hall : (dramInit 100 0).bind (fun d₀ => (d₀.step (byteEntry 1)).bind fun d₁ =>
      (d₁.step (byteEntry 2)).map fun d => decide (
        (d₀.budget / d₀.nShards = 100 ∧ (d₀.shards (d₀.shardOf (1, 0))).queue.length < 2048) ∧
        (d₁.budget / d₁.nShards = 100 ∧ (d₁.shards (d₁.shardOf (2, 0))).queue.length < 2048) ∧
        ((d₁.shards 0).queue.map (·.key)) = [(1, 0)] ∧
        ((d.shards 0).queue.map (·.key)) = [(2, 0)])) = some true := by decide +kernel
  obtain ⟨d₀, hinit, hall⟩ := Option.bind_eq_some_iff.1 hall
  obtain ⟨d₁, hstep₁, hall⟩ := Option.bind_eq_some_iff.1 hall
  obtain ⟨d, hstep, hall⟩ := Option.map_eq_some_iff.1 hall
  obtain ⟨hfew₀, hfew₁, hfirst, hsecond⟩ := of_decide_eq_true hall
  have hcounted := (DramCounted.init hinit).1
  have hfits : ∀ {d : DramCache} {p : UInt64}, DramCounted d → d.budget / d.nShards = 100 ∧
      (d.shards (d.shardOf (p, 0))).queue.length < 2048 → CallFits d (byteEntry p) := by
    intro d p hd hfew
    refine (callFits_of_few hd hfew.2).2 fun _ => ?_
    rw [hfew.1]
    decide
  have hrun : RunOf DramCache.step CallFits d₀ [byteEntry 1, byteEntry 2] d :=
    .cons (hfits hcounted hfew₀) hstep₁
      (.cons (hfits (hcounted.step hstep₁).1 hfew₁) hstep (.nil d))
  have hbudget := dram_budget_iff hinit (hrun.mono fun _ _ _ => trivial)
  have hwithin := (hbudget.1.2 hrun).2
  exact ⟨d₀, d₁, d, hinit, hstep₁, hstep, hfirst, hsecond, hwithin, hbudget.2 hwithin⟩

/-- A payload of one and a half million bytes. -/
def largePayload : ReadResult := ⟨List.replicate 1500000 0, []⟩

theorem putStores_largePayload {d : DramCache} (hbudget : d.budget = 2 * 1024 * 1024)
    (hmax : d.entryMax = dramDefaultEntryMax) {k : DramKey}
    (hempty : (d.shards (d.shardOf k)).queue = []) :
    PutStores d k 1 largePayload true ∧ entrySize largePayload = 1500056 := by
  have hlen : largePayload.buf.length = 1500000 := length_replicate
  have hsize : entrySize largePayload = 1500056 := by rw [entrySize, hlen]; rfl
  have htotal : entryTotal largePayload = 1500056 := by
    rw [entryTotal, hsize, Nat.mod_eq_of_lt (by decide)]
  refine ⟨⟨?_, ?_, ?_, fun old hold => ?_, rfl⟩, hsize⟩
  · rw [hlen]
    decide
  · rw [htotal, hmax]
    decide
  · rw [htotal, hbudget]
    decide
  · rw [DramShard.find, hempty] at hold
    cases hold

/-- A budget of 2 MiB makes two shards of 1 MiB each. An entry that is larger than a shard is
admitted, and with one in each shard the cache is above its budget. -/
theorem dram_above_budget :
    ∃ d₀ d₁ d₂, dramInit (2 * 1024 * 1024) 0 = some d₀ ∧
      d₀.step (.put (1, 0) 1 0 largePayload true) = some d₁ ∧
      d₁.step (.put (2, 0) 1 0 largePayload true) = some d₂ ∧
      (d₁.shards (d₁.shardOf (1, 0))).budget < (d₁.shards (d₁.shardOf (1, 0))).bytes ∧
      2 * 1024 * 1024 < dramBytes d₂ := by
  let d₀ : DramCache := ⟨2 * 1024 * 1024, dramDefaultEntryMax, 2, fun _ => ⟨1024 * 1024, [], none, 0⟩⟩
  have hinit : dramInit (2 * 1024 * 1024) 0 = some d₀ := rfl
  have hone : ∀ d : DramCache, d.nShards = 2 → d.shardOf (1, 0) = 1 := by
    intro d hd
    rw [DramCache.shardOf, hd]
    decide +kernel
  have htwo : ∀ d : DramCache, d.nShards = 2 → d.shardOf (2, 0) = 0 := by
    intro d hd
    rw [DramCache.shardOf, hd]
    decide +kernel
  obtain ⟨hst₀, hsize⟩ := putStores_largePayload (d := d₀) (k := (1, 0)) rfl rfl rfl
  have htotal : entryTotal largePayload = 1500056 := by
    rw [entryTotal, hsize, Nat.mod_eq_of_lt (by decide)]
  -- the first put, into shard 1
  have hcounted₀ := (DramCounted.init hinit).1
  have hstep₀ := put_of_stores hst₀ 0 (by omega)
  have hbytes₁ := entryTotal_le_of_stores hcounted₀ (1, 0) 1 0 largePayload
  have hbudget₁ : ((putShard d₀ (1, 0) 1 0 largePayload).sieveEvict (1, 0)).budget = 1024 * 1024 :=
    (budget_sieveEvict _ _).trans (budget_invalidate _ _)
  have hcounted₁ := (hcounted₀.step (c := .put (1, 0) 1 0 largePayload true) hstep₀).1
  generalize (putShard d₀ (1, 0) 1 0 largePayload).sieveEvict (1, 0) = sh₁ at *
  obtain ⟨d₁, hd₁⟩ : ∃ d₁, d₁ = d₀.update (1, 0) sh₁ := ⟨_, rfl⟩
  rw [← hd₁] at hstep₀ hcounted₁
  have hshards₁ : d₁.shards = update d₀.shards 1 sh₁ := by
    rw [hd₁, DramCache.update, hone d₀ rfl]
  have hn₁ : d₁.nShards = 2 := by rw [hd₁]; rfl
  -- the second key is in the other shard
  have hst₁ := (putStores_largePayload (d := d₁) (k := (2, 0)) (by rw [hd₁]; rfl)
    (by rw [hd₁]; rfl) (by
      rw [htwo d₁ hn₁, hshards₁, update_of_ne (by decide)])).1
  have hstep₁ := put_of_stores hst₁ 0 (by omega)
  have hbytes₂ := entryTotal_le_of_stores hcounted₁ (2, 0) 1 0 largePayload
  generalize (putShard d₁ (2, 0) 1 0 largePayload).sieveEvict (2, 0) = sh₂ at *
  rw [htotal] at hbytes₁ hbytes₂
  refine ⟨d₀, d₁, d₁.update (2, 0) sh₂, hinit, hstep₀, hstep₁, ?_, ?_⟩
  · rw [hone d₁ hn₁, hshards₁, update_self, hbudget₁]
    omega
  have hsum : dramBytes (d₁.update (2, 0) sh₂) = sh₂.bytes + sh₁.bytes := by
    rw [dramBytes, show (d₁.update (2, 0) sh₂).nShards = 2 from hn₁,
      show (d₁.update (2, 0) sh₂).shards = update d₁.shards 0 sh₂ by
        rw [DramCache.update, htwo d₁ hn₁], Finset.sum_range_succ, Finset.sum_range_one,
      update_self, update_of_ne (by decide), hshards₁, update_self]
  rw [hsum]
  omega

end KvTier.Analysis
