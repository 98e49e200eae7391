import KvTier.Model.Dram
import KvTier.Analysis.IndexFacts

/-!
# The entries of the DRAM cache

What the operations of the cache do to its entries: they take some out, clear and set visited bits,
and a put adds one.
-/

namespace KvTier.Analysis

open Function KvTier.Lib KvTier.Model List

variable {P : DramShard → Prop} {alloc : Bool} {e : DramEntry} {expireTs ver : Nat} {k : DramKey}
  {r : ReadResult}

/-! ## Shards -/

abbrev EntryProp := DramKey → Nat → Nat → ReadResult → Prop

/-- Every entry of the shard has the property. -/
def ShardHolds (E : EntryProp) (sh : DramShard) : Prop :=
  ∀ e ∈ sh.queue, E e.key e.ver e.expireTs e.data

/-- No two entries of the shard have one key. -/
def DramShardOk (sh : DramShard) : Prop := (sh.queue.map (·.key)).Nodup

section Shard

variable {E : EntryProp} {sh : DramShard}

theorem ShardHolds.remove (h : ShardHolds E sh) (e : DramEntry) : ShardHolds E (sh.remove e) :=
  fun x hx => h x (mem_of_mem_filter hx)

theorem DramShardOk.remove (h : DramShardOk sh) (e : DramEntry) : DramShardOk (sh.remove e) :=
  h.sublist (List.filter_sublist.map _)

theorem ShardHolds.setVisited (h : ShardHolds E sh) (k : DramKey) (v : Bool) :
    ShardHolds E (sh.setVisited k v) := by
  intro x hx
  obtain ⟨e, he, rfl⟩ := mem_map.1 hx
  split
  · exact h e he
  · exact h e he

theorem keys_setVisited (sh : DramShard) (k : DramKey) (v : Bool) :
    (sh.setVisited k v).queue.map (·.key) = sh.queue.map (·.key) := by
  rw [DramShard.setVisited, map_map]
  refine map_congr_left fun e _ => ?_
  simp only [Function.comp]
  split <;> rfl

theorem DramShardOk.setVisited (h : DramShardOk sh) (k : DramKey) (v : Bool) :
    DramShardOk (sh.setVisited k v) := by
  rw [DramShardOk, keys_setVisited]
  exact h

theorem ShardHolds.invalidate (h : ShardHolds E sh) (k : DramKey) :
    ShardHolds E (sh.invalidate k) := by
  unfold DramShard.invalidate
  split
  · exact h
  · exact h.remove _

theorem DramShardOk.invalidate (h : DramShardOk sh) (k : DramKey) : DramShardOk (sh.invalidate k) := by
  unfold DramShard.invalidate
  split
  · exact h
  · exact h.remove _

theorem key_invalidate (sh : DramShard) (he : e ∈ (sh.invalidate k).queue) : e.key ≠ k := by
  unfold DramShard.invalidate at he
  split at he
  · rename_i hnone
    have := List.find?_eq_none.1 hnone e he
    simpa using this
  rename_i x hx
  have hkey : x.key = k := by simpa using List.find?_some hx
  have hne := of_mem_filter he
  rw [hkey] at hne
  simpa using hne

theorem ShardHolds.insert (h : ShardHolds E sh) (he : E e.key e.ver e.expireTs e.data) :
    ShardHolds E (sh.insert e) := by
  intro x hx
  rcases mem_append.1 hx with hx | hx
  · exact h x hx
  · rw [mem_singleton.1 hx]
    exact he

theorem DramShardOk.insert (h : DramShardOk sh) (he : ∀ x ∈ sh.queue, x.key ≠ e.key) :
    DramShardOk (sh.insert e) := by
  have hmap : (sh.insert e).queue.map (·.key) = sh.queue.map (·.key) ++ [e.key] := by
    rw [DramShard.insert, map_append]
    rfl
  rw [DramShardOk, hmap]
  refine nodup_append.2 ⟨h, by simp, fun a ha b hb => ?_⟩
  obtain ⟨x, hx, rfl⟩ := mem_map.1 ha
  rw [mem_singleton.1 hb]
  exact he x hx

theorem sieveStep_keeps (k : DramKey)
    (hremove : ∀ sh, ∀ e ∈ sh.queue, e.key ≠ k → P sh → P (sh.remove e))
    (hvisited : ∀ sh k v, P sh → P (sh.setVisited k v))
    (hhand : ∀ sh h, P sh → P { sh with hand := h }) (h : P sh) : P (sh.sieveStep k) := by
  unfold DramShard.sieveStep
  split
  · exact h
  rename_i e he
  have hmem : e ∈ sh.queue := by
    rcases (Option.orElse_eq_some _ _ _).1 he with hfound | ⟨-, hhead⟩
    · obtain ⟨k, -, hfind⟩ := Option.bind_eq_some_iff.1 hfound
      exact List.mem_of_find?_eq_some hfind
    · exact mem_of_mem_head? hhead
  split
  · exact hhand _ _ h
  rename_i hk
  split
  · exact hhand _ _ (hvisited _ _ _ h)
  · exact hhand _ _ (hremove _ e hmem hk h)

theorem sieveEvict_keeps (k : DramKey)
    (hremove : ∀ sh, ∀ e ∈ sh.queue, e.key ≠ k → P sh → P (sh.remove e))
    (hvisited : ∀ sh k v, P sh → P (sh.setVisited k v))
    (hhand : ∀ sh h, P sh → P { sh with hand := h }) (h : P sh) : P (sh.sieveEvict k) := by
  have hloop : ∀ n sh, P sh → P (DramShard.sieveLoop k n sh) := by
    intro n
    induction n with
    | zero => exact fun sh h => h
    | succ n ih =>
      intro sh h
      unfold DramShard.sieveLoop
      split
      · exact ih _ (sieveStep_keeps k hremove hvisited hhand h)
      · exact h
  unfold DramShard.sieveEvict
  simp only
  split
  · exact hhand _ _ (hloop 4096 sh h)
  · exact hloop 4096 sh h

theorem ShardHolds.sieveEvict (h : ShardHolds E sh) (k : DramKey) :
    ShardHolds E (sh.sieveEvict k) :=
  sieveEvict_keeps k (fun _ e _ _ h => h.remove e) (fun _ k v h => h.setVisited k v) (fun _ _ h => h) h

theorem DramShardOk.sieveEvict (h : DramShardOk sh) (k : DramKey) : DramShardOk (sh.sieveEvict k) :=
  sieveEvict_keeps k (fun _ e _ _ h => h.remove e) (fun _ k v h => h.setVisited k v) (fun _ _ h => h) h

end Shard

/-! ## The cache -/

/-- Every entry of the cache has the property. -/
def DramHolds (E : EntryProp) (d : DramCache) : Prop := ∀ i, ShardHolds E (d.shards i)

/-- No shard has two entries of one key. -/
def DramOk (d : DramCache) : Prop := ∀ i, DramShardOk (d.shards i)

section Cache

variable {E : EntryProp} {d d' : DramCache}

theorem forall_update (h : ∀ i, P (d.shards i)) (k : DramKey) {sh : DramShard} (hsh : P sh) :
    ∀ i, P ((d.update k sh).shards i) := by
  intro i
  show P (update d.shards (d.shardOf k) sh i)
  by_cases hi : i = d.shardOf k
  · rw [hi, update_self]
    exact hsh
  · rw [update_of_ne hi]
    exact h i

theorem DramHolds.init {budget entryMax : Nat} (h : dramInit budget entryMax = some d) :
    DramHolds E d := by
  unfold dramInit at h
  split at h
  · cases h
  · cases h
    exact fun i e he => by cases he

theorem DramOk.init {budget entryMax : Nat} (h : dramInit budget entryMax = some d) : DramOk d := by
  unfold dramInit at h
  split at h
  · cases h
  · cases h
    exact fun i => nodup_nil

theorem DramHolds.invalidate (h : DramHolds E d) (k : DramKey) : DramHolds E (d.invalidate k) :=
  forall_update h k ((h _).invalidate k)

theorem DramOk.invalidate (h : DramOk d) (k : DramKey) : DramOk (d.invalidate k) :=
  forall_update h k ((h _).invalidate k)

/-- A hit is an entry of the key, with the version and not expired, which is then marked. -/
theorem get_cases (d : DramCache) (k : DramKey) (ver now : Nat) (alloc : Bool) :
    d.get k ver now alloc = (d, none) ∨
    ∃ e ∈ (d.shards (d.shardOf k)).queue, e.key = k ∧ e.ver = ver ∧
      (e.expireTs = 0 ∨ now ≤ e.expireTs) ∧
      d.get k ver now alloc =
        (d.update k ((d.shards (d.shardOf k)).setVisited k true),
          some { e.data with recs := e.data.recs.take maxLayersCap }) := by
  unfold DramCache.get
  cases hf : (d.shards (d.shardOf k)).find k with
  | none => exact .inl rfl
  | some e =>
    simp only
    split
    · exact .inl rfl
    rename_i hok
    simp only [not_or, not_and, not_not] at hok
    obtain ⟨hver, hexp, _⟩ := hok
    refine .inr ⟨e, List.mem_of_find?_eq_some hf, by simpa using List.find?_some hf, hver, ?_, rfl⟩
    by_cases h0 : e.expireTs = 0
    · exact .inl h0
    · exact .inr (Nat.le_of_not_lt (hexp h0))

theorem DramHolds.get (h : DramHolds E d) (k : DramKey) (ver now : Nat) (alloc : Bool) :
    DramHolds E (d.get k ver now alloc).1 := by
  rcases get_cases d k ver now alloc with he | ⟨e, _, _, _, _, he⟩
  · rw [he]
    exact h
  · rw [he]
    exact forall_update h k ((h _).setVisited k true)

theorem DramOk.get (h : DramOk d) (k : DramKey) (ver now : Nat) (alloc : Bool) :
    DramOk (d.get k ver now alloc).1 := by
  rcases get_cases d k ver now alloc with he | ⟨e, _, _, _, _, he⟩
  · rw [he]
    exact h
  · rw [he]
    exact forall_update h k ((h _).setVisited k true)

/-- The shard with the new entry, before evictions. -/
def putShard (d : DramCache) (k : DramKey) (ver expireTs : Nat) (r : ReadResult) : DramShard :=
  ((d.shards (d.shardOf k)).invalidate k).insert ⟨k, ver, expireTs, r, false⟩

/-- `dram_put` stores the entry. -/
def PutStores (d : DramCache) (k : DramKey) (ver : Nat) (r : ReadResult) (alloc : Bool) : Prop :=
  r.buf.length ≠ 0 ∧ entryTotal r ≤ d.entryMax ∧ entryTotal r ≤ d.budget ∧
    (∀ old, (d.shards (d.shardOf k)).find k = some old → old.ver < ver) ∧ alloc = true

/-- A put stores its entry and evicts, or at most drops the old entry. -/
theorem put_stores (h : d.put k ver expireTs r alloc = some d') :
    (PutStores d k ver r alloc ∧
      d' = d.update k ((putShard d k ver expireTs r).sieveEvict k)) ∨
    (¬ PutStores d k ver r alloc ∧ (d' = d ∨ d' = d.invalidate k)) := by
  unfold DramCache.put at h
  split at h
  · rename_i hrefused
    refine .inr ⟨fun hst => ?_, .inl (Option.some.inj h).symm⟩
    rcases hrefused with hempty | hmax | hbudget
    · exact hst.1 hempty
    · exact absurd hst.2.1 (by omega)
    · exact absurd hst.2.2.1 (by omega)
  rename_i hadmitted
  simp only [not_or, Nat.not_lt] at hadmitted
  simp only at h
  split at h
  · rename_i hold
    refine .inr ⟨fun hst => ?_, .inl (Option.some.inj h).symm⟩
    cases hfind : (d.shards (d.shardOf k)).find k with
    | none =>
      rw [hfind] at hold
      cases hold
    | some old =>
      rw [hfind, Option.any_some, decide_eq_true_iff] at hold
      exact absurd (hst.2.2.2.1 old hfind) (by omega)
  rename_i hold
  split at h
  · rename_i halloc
    exact .inr ⟨fun hst => Bool.false_ne_true (halloc.symm.trans hst.2.2.2.2),
      .inr (Option.some.inj h).symm⟩
  rename_i halloc
  split at h
  · cases h
  refine .inl ⟨⟨hadmitted.1, hadmitted.2.1, hadmitted.2.2, fun old ho => ?_,
    Bool.not_eq_false _ ▸ halloc⟩, (Option.some.inj h).symm⟩
  rw [ho] at hold
  simpa using hold

theorem put_of_stores (h : PutStores d k ver r alloc) (expireTs : Nat)
    (hsize : entrySize r < 2 ^ 32) :
    d.put k ver expireTs r alloc =
      some (d.update k ((putShard d k ver expireTs r).sieveEvict k)) := by
  obtain ⟨hempty, hmax, hbudget, hver, halloc⟩ := h
  have hany : ((d.shards (d.shardOf k)).find k).any (fun old => decide (ver ≤ old.ver)) = false := by
    cases hfind : (d.shards (d.shardOf k)).find k with
    | none => rfl
    | some old =>
      have := hver old hfind
      rw [Option.any_some, decide_eq_false_iff_not]
      omega
  unfold DramCache.put
  rw [if_neg (by omega)]
  simp only
  rw [if_neg (by rw [hany]; decide), if_neg (by rw [halloc]; decide),
    if_neg (by rw [entryTotal, Nat.mod_eq_of_lt hsize]; exact fun h => h rfl)]
  rfl

theorem DramHolds.put (h : DramHolds E d) (hnew : E k ver expireTs r)
    (hput : d.put k ver expireTs r alloc = some d') : DramHolds E d' := by
  rcases put_stores hput with ⟨-, rfl⟩ | ⟨-, rfl | rfl⟩
  · exact forall_update h k ((((h _).invalidate k).insert hnew).sieveEvict k)
  · exact h
  · exact h.invalidate k

theorem DramOk.put (h : DramOk d) (hput : d.put k ver expireTs r alloc = some d') : DramOk d' := by
  rcases put_stores hput with ⟨-, rfl⟩ | ⟨-, rfl | rfl⟩
  · have hfresh : ∀ x ∈ ((d.shards (d.shardOf k)).invalidate k).queue, x.key ≠ k :=
      fun x hx => key_invalidate _ hx
    exact forall_update h k ((((h _).invalidate k).insert hfresh).sieveEvict k)
  · exact h
  · exact h.invalidate k

end Cache

end KvTier.Analysis
