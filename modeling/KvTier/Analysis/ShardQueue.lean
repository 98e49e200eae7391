import KvTier.Lib.Fifo
import KvTier.Model.ShardQueue

/-!
# The shard queue is a bounded FIFO

Positions are counted without end; position `t` lies in slot `t % cap`.
-/

namespace KvTier.Analysis

open KvTier.Lib KvTier.Model List

variable {ι α : Type}

/-! ## Positions and slots -/

theorem mod_ne_of_lap {cap r t t' : Nat} (h : r ≤ t) (h' : t < r + cap) (g : r ≤ t')
    (g' : t' < r + cap) (hne : t ≠ t') : t % cap ≠ t' % cap := by
  intro he
  rcases Nat.lt_or_gt_of_ne hne with hlt | hlt
  · have hdvd : cap ∣ t' - t := (Nat.modEq_iff_dvd' hlt.le).mp he
    have hle := Nat.le_of_dvd (by omega) hdvd
    omega
  · have hdvd : cap ∣ t - t' := (Nat.modEq_iff_dvd' hlt.le).mp he.symm
    have hle := Nat.le_of_dvd (by omega) hdvd
    omega

theorem exists_pos_of_lap {cap : Nat} (hcap : 0 < cap) (r t : Nat) :
    ∃ t', r ≤ t' ∧ t' < r + cap ∧ t' % cap = t % cap := by
  have hlt := Nat.mod_lt (t + (cap - r % cap)) hcap
  refine ⟨r + (t + (cap - r % cap)) % cap, by omega, by omega, ?_⟩
  have hr := Nat.mod_lt r hcap
  calc (r + (t + (cap - r % cap)) % cap) % cap
      = (r + (t + (cap - r % cap))) % cap := by rw [Nat.add_mod_mod]
    _ = (r % cap + (t + (cap - r % cap))) % cap := by rw [Nat.mod_add_mod]
    _ = (t + cap) % cap := by congr 1; omega
    _ = t % cap := Nat.add_mod_right t cap

/-- The positions that were given back by the consumer. -/
def released (s : ShardQueue ι α) : Nat :=
  match s.pop with
  | .freed h _ => h + 1
  | _ => s.ring.head

/-- The producer has claimed the ticket. -/
def Owns (s : ShardQueue ι α) (i : ι) (p : α) (t : Nat) : Prop :=
  s.push i = .claimed p t ∨ s.push i = .stored p t

/-- What the consumer knows. -/
def PopOk (s : ShardQueue ι α) : Prop :=
  match s.pop with
  | .idle => True
  | .read h => h = s.ring.head
  | .ready h => h = s.ring.head ∧ h < s.ring.tail ∧ (s.slot h).seq = h + 1
  | .taken h p => h = s.ring.head ∧ h < s.ring.tail ∧ (s.slot h).seq = h + 1 ∧ p = s.claims[h]?
  | .freed h p => h = s.ring.head ∧ h < s.ring.tail ∧ p = s.claims[h]?

/-- Tickets are claimed in order, and a slot has the sequence number its state asks for. -/
structure QueueOk (k : Nat) (s : ShardQueue ι α) : Prop where
  two : 1 ≤ k
  mask : s.ring.mask = 2 ^ k - 1
  tail : s.ring.tail = s.claims.length
  lo : released s ≤ s.ring.tail
  hi : s.ring.tail ≤ released s + 2 ^ k
  free : ∀ t, s.ring.tail ≤ t → t < released s + 2 ^ k → (s.slot t).seq = t
  full : ∀ t, released s ≤ t → t < s.ring.tail → (∃ i p, Owns s i p t) ∨
    ((s.slot t).seq = t + 1 ∧ (s.slot t).ptr = s.claims[t]?)
  own : ∀ i p t, Owns s i p t → released s ≤ t ∧ t < s.ring.tail ∧ s.claims[t]? = some p ∧
    (s.slot t).seq = t
  stored : ∀ i p t, s.push i = .stored p t → (s.slot t).ptr = some p
  one : ∀ i j p q t, Owns s i p t → Owns s j q t → i = j
  read : ∀ i p t, s.push i = .read p t → t ≤ s.ring.tail
  ready : ∀ i p t, s.push i = .ready p t → t ≤ s.ring.tail ∧
    (t = s.ring.tail → t < released s + 2 ^ k)
  pop : PopOk s
  popped : s.popped = (s.claims.take s.ring.head).map some

section Slots

variable {k : Nat} {s : ShardQueue ι α}

theorem slot_eq (hmask : s.ring.mask = 2 ^ k - 1) (t : Nat) :
    s.slot t = s.ring.slots (t % 2 ^ k) := by
  rw [ShardQueue.slot, hmask, Nat.and_two_pow_sub_one_eq_mod]

theorem slot_setSlot_self (t : Nat) (x : MpscSlot α) : (s.setSlot t x).slot t = x := by
  simp [ShardQueue.slot, ShardQueue.setSlot]

theorem slot_setSlot_of_ne (hmask : s.ring.mask = 2 ^ k - 1) {t t' r : Nat} (x : MpscSlot α)
    (h : r ≤ t) (h' : t < r + 2 ^ k) (g : r ≤ t') (g' : t' < r + 2 ^ k) (hne : t' ≠ t) :
    (s.setSlot t x).slot t' = s.slot t' := by
  have hmod := mod_ne_of_lap g g' h h' hne
  simp only [ShardQueue.slot, ShardQueue.setSlot, hmask, Nat.and_two_pow_sub_one_eq_mod]
  exact Function.update_of_ne hmod _ _

theorem QueueOk.seq_bounds (h : QueueOk k s) {t : Nat} (hlo : released s ≤ t)
    (hhi : t < released s + 2 ^ k) : t ≤ (s.slot t).seq ∧ (s.slot t).seq ≤ t + 1 := by
  rcases Nat.lt_or_ge t s.ring.tail with ht | ht
  · rcases h.full t hlo ht with ⟨i, p, howns⟩ | ⟨hseq, _⟩
    · have hseq := (h.own i p t howns).2.2.2
      omega
    · omega
  · have hseq := h.free t ht hhi
    omega

theorem QueueOk.full_of_diff_neg (h : QueueOk k s) {t : Nat} (ht : t ≤ s.ring.tail)
    (hdiff : s.diff t < 0) : s.ring.tail = released s + 2 ^ k := by
  by_contra hne
  have hhi := h.hi
  have hseq : (s.slot t).seq < t := by
    unfold ShardQueue.diff at hdiff
    omega
  -- the slot belongs to a position of the current lap, and `seq` is not below that one
  obtain ⟨t', hlo', hhi', hmod⟩ := exists_pos_of_lap (Nat.two_pow_pos k) (released s) t
  have hslot : s.slot t = s.slot t' := by rw [slot_eq h.mask, slot_eq h.mask, hmod]
  have hb := h.seq_bounds hlo' hhi'
  rw [hslot] at hseq
  have hlo : released s ≤ t := by omega
  have heq : t = t' := by
    by_contra hne'
    exact mod_ne_of_lap hlo (by omega) hlo' hhi' hne' hmod.symm
  omega

theorem QueueOk.lt_of_diff_zero (h : QueueOk k s) {t : Nat} (hdiff : s.diff t = 0)
    (ht : t = s.ring.tail) : t < released s + 2 ^ k := by
  by_contra hge
  have hhi := h.hi
  have hseq : (s.slot t).seq = t := by
    unfold ShardQueue.diff at hdiff
    omega
  -- else the slot is the one of the oldest position, a lap behind
  have hpos := Nat.two_pow_pos k
  have hslot : s.slot t = s.slot (released s) := by
    rw [slot_eq h.mask, slot_eq h.mask]
    have hlap : t = released s + 2 ^ k := by omega
    rw [hlap, Nat.add_mod_right]
  have hb := h.seq_bounds (Nat.le_refl (released s)) (by omega)
  have htwo : 2 ^ 1 ≤ 2 ^ k := Nat.pow_le_pow_right (by decide) h.two
  rw [← hslot, hseq] at hb
  omega

theorem QueueOk.head_le (h : QueueOk k s) : s.ring.head ≤ released s := by
  have hpop := h.pop
  unfold released
  unfold PopOk at hpop
  cases hp : s.pop with
  | freed h p =>
    rw [hp] at hpop
    exact Nat.le_succ_of_le (Nat.le_of_eq hpop.1.symm)
  | _ => exact Nat.le_refl _

theorem PopOk.congr {s' : ShardQueue ι α} (h : PopOk s) (hpop : s'.pop = s.pop)
    (hhead : s'.ring.head = s.ring.head) (htail : s.ring.tail ≤ s'.ring.tail)
    (hseq : released s = s.ring.head → s.ring.head < s.ring.tail →
      (s.slot s.ring.head).seq = s.ring.head + 1 → (s'.slot s.ring.head).seq = s.ring.head + 1)
    (hget : ∀ t, t < s.ring.tail → s'.claims[t]? = s.claims[t]?) : PopOk s' := by
  unfold PopOk at h ⊢
  rw [hpop, hhead]
  cases hp : s.pop with
  | idle => trivial
  | read h0 =>
    rw [hp] at h
    exact h
  | ready h0 =>
    rw [hp] at h
    obtain ⟨rfl, h1, h2⟩ := h
    have hrel : released s = s.ring.head := by unfold released; rw [hp]
    exact ⟨rfl, by omega, hseq hrel h1 h2⟩
  | taken h0 p =>
    rw [hp] at h
    obtain ⟨rfl, h1, h2, h3⟩ := h
    have hrel : released s = s.ring.head := by unfold released; rw [hp]
    exact ⟨rfl, by omega, hseq hrel h1 h2, h3.trans (hget _ h1).symm⟩
  | freed h0 p =>
    rw [hp] at h
    obtain ⟨rfl, h1, h2⟩ := h
    exact ⟨rfl, by omega, h2.trans (hget _ h1).symm⟩

end Slots

/-! ## Initially -/

theorem QueueOk.init (power : Nat) :
    QueueOk (max power 4) (ShardQueue.init ι α power) where
  two := by omega
  mask := rfl
  tail := rfl
  lo := Nat.zero_le _
  hi := Nat.zero_le _
  free t _ ht := by
    have hmask : (ShardQueue.init ι α power).ring.mask = 2 ^ max power 4 - 1 := rfl
    have hlt : t < 2 ^ max power 4 := by simpa [released, ShardQueue.init, mpscInit] using ht
    rw [slot_eq hmask, Nat.mod_eq_of_lt hlt]
    rfl
  full t _ ht := absurd ht (Nat.not_lt_zero t)
  own i p t h := by rcases h with h | h <;> cases h
  stored i p t h := by cases h
  one i j p q t h _ := by rcases h with h | h <;> cases h
  read i p t h := by cases h
  ready i p t h := by cases h
  pop := trivial
  popped := rfl

/-! ## Steps of a producer -/

section Producer

variable [DecidableEq ι] {k : Nat} {s : ShardQueue ι α}

theorem push_setPush_cases {i j : ι} {pc pc' : PushPc α} (h : (s.setPush i pc).push j = pc') :
    (j = i ∧ pc = pc') ∨ (j ≠ i ∧ s.push j = pc') := by
  by_cases hj : j = i
  · subst hj
    exact Or.inl ⟨rfl, by simpa [ShardQueue.setPush] using h⟩
  · exact Or.inr ⟨hj, by simpa [ShardQueue.setPush, hj] using h⟩

theorem owns_setPush_iff {i j : ι} {pc : PushPc α} {p : α} {t : Nat} :
    Owns (s.setPush i pc) j p t ↔
      (j = i ∧ (pc = .claimed p t ∨ pc = .stored p t)) ∨ (j ≠ i ∧ Owns s j p t) := by
  unfold Owns
  by_cases hj : j = i
  · subst hj
    simp [ShardQueue.setPush]
  · simp [ShardQueue.setPush, hj]

/-- A producer that has not claimed a position. -/
def Idle (pc : PushPc α) : Prop := ∀ p t, pc ≠ .claimed p t ∧ pc ≠ .stored p t

omit [DecidableEq ι] in
theorem Idle.not_owns {i : ι} (hold : Idle (s.push i)) (p : α) (t : Nat) : ¬ Owns s i p t :=
  fun ho => ho.elim (hold p t).1 (hold p t).2

theorem owns_setPush {i : ι} (hold : Idle (s.push i)) {pc : PushPc α} (hnew : Idle pc) (j : ι)
    (p : α) (t : Nat) : Owns (s.setPush i pc) j p t ↔ Owns s j p t := by
  have h1 := hold.not_owns p t
  have h2 := hnew p t
  rw [owns_setPush_iff]
  by_cases hj : j = i
  · subst hj
    tauto
  · simp [hj]

theorem QueueOk.setPush (h : QueueOk k s) {i : ι} (hold : Idle (s.push i)) {pc : PushPc α}
    (hnew : Idle pc) (hread : ∀ p t, pc = .read p t → t ≤ s.ring.tail)
    (hready : ∀ p t, pc = .ready p t → t ≤ s.ring.tail ∧
      (t = s.ring.tail → t < released s + 2 ^ k)) : QueueOk k (s.setPush i pc) where
  two := h.two
  mask := h.mask
  tail := h.tail
  lo := h.lo
  hi := h.hi
  free := h.free
  full t hlo hhi := by
    rcases h.full t hlo hhi with ⟨j, p, howns⟩ | hdone
    · exact Or.inl ⟨j, p, (owns_setPush hold hnew j p t).mpr howns⟩
    · exact Or.inr hdone
  own j p t howns := h.own j p t ((owns_setPush hold hnew j p t).mp howns)
  stored j p t hj := by
    rcases push_setPush_cases hj with ⟨_, he⟩ | ⟨_, hj⟩
    · exact absurd he (hnew p t).2
    · exact h.stored j p t hj
  one j j' p q t ho ho' :=
    h.one j j' p q t ((owns_setPush hold hnew j p t).mp ho) ((owns_setPush hold hnew j' q t).mp ho')
  read j p t hj := by
    rcases push_setPush_cases hj with ⟨_, he⟩ | ⟨_, hj⟩
    · exact hread p t he
    · exact h.read j p t hj
  ready j p t hj := by
    rcases push_setPush_cases hj with ⟨_, he⟩ | ⟨_, hj⟩
    · exact hready p t he
    · exact h.ready j p t hj
  pop := h.pop
  popped := h.popped

/-- The state after a successful compare-exchange. -/
def afterClaim (s : ShardQueue ι α) (i : ι) (ptr : α) : ShardQueue ι α :=
  { s.setPush i (.claimed ptr s.ring.tail) with
    ring := { s.ring with tail := s.ring.tail + 1 }
    claims := s.claims ++ [ptr] }

theorem push_afterClaim_cases {i j : ι} {ptr : α} {pc : PushPc α}
    (h : (afterClaim s i ptr).push j = pc) :
    (j = i ∧ .claimed ptr s.ring.tail = pc) ∨ (j ≠ i ∧ s.push j = pc) :=
  push_setPush_cases h

theorem owns_afterClaim {i : ι} {ptr : α} (hold : Idle (s.push i)) {j : ι} {p : α} {t : Nat} :
    Owns (afterClaim s i ptr) j p t ↔ Owns s j p t ∨ (j = i ∧ p = ptr ∧ t = s.ring.tail) := by
  have hiff : Owns (afterClaim s i ptr) j p t ↔ _ :=
    owns_setPush_iff (s := s) (i := i) (j := j) (p := p) (t := t)
  have h1 := hold.not_owns p t
  rw [hiff]
  simp only [PushPc.claimed.injEq, reduceCtorEq, or_false]
  by_cases hj : j = i
  · subst hj
    simp [h1, eq_comm]
  · simp [hj]

theorem QueueOk.claim (h : QueueOk k s) {i : ι} {ptr : α} (hpc : s.push i = .ready ptr s.ring.tail) :
    QueueOk k (afterClaim s i ptr) := by
  have hroom := (h.ready i ptr _ hpc).2 rfl
  have hold : Idle (s.push i) := by
    intro p t
    rw [hpc]
    exact ⟨by simp, by simp⟩
  have hlo := h.lo
  have hget : ∀ t, t < s.ring.tail → (s.claims ++ [ptr])[t]? = s.claims[t]? := by
    intro t ht
    rw [h.tail] at ht
    exact List.getElem?_append_left ht
  have hnew : (s.claims ++ [ptr])[s.ring.tail]? = some ptr := by
    rw [h.tail, List.getElem?_append_right (Nat.le_refl _), Nat.sub_self]
    rfl
  refine ⟨h.two, h.mask, ?_, Nat.le_succ_of_le hlo, hroom,
    fun t ht hhi => h.free t (Nat.le_of_succ_le ht) hhi, ?_, ?_, ?_, ?_, ?_, ?_, ?_, ?_⟩
  · change s.ring.tail + 1 = (s.claims ++ [ptr]).length
    rw [length_append, length_singleton, h.tail]
  · intro t hlo' ht
    change t < s.ring.tail + 1 at ht
    rcases Nat.lt_succ_iff_lt_or_eq.mp ht with ht | rfl
    · rcases h.full t hlo' ht with ⟨j, p, howns⟩ | ⟨hseq, hptr⟩
      · exact Or.inl ⟨j, p, (owns_afterClaim hold).mpr (Or.inl howns)⟩
      · exact Or.inr ⟨hseq, hptr.trans (hget t ht).symm⟩
    · exact Or.inl ⟨i, ptr, (owns_afterClaim hold).mpr (Or.inr ⟨rfl, rfl, rfl⟩)⟩
  · intro j p t howns
    change released s ≤ t ∧ t < s.ring.tail + 1 ∧ (s.claims ++ [ptr])[t]? = some p ∧
      (s.slot t).seq = t
    rcases (owns_afterClaim hold).mp howns with howns | ⟨_, rfl, rfl⟩
    · obtain ⟨h1, h2, h3, h4⟩ := h.own j p t howns
      exact ⟨h1, by omega, (hget t h2).trans h3, h4⟩
    · exact ⟨hlo, by omega, hnew, h.free _ (Nat.le_refl _) hroom⟩
  · intro j p t hj
    rcases push_afterClaim_cases hj with ⟨_, he⟩ | ⟨_, hj⟩
    · cases he
    · exact h.stored j p t hj
  · intro j j' p q t ho ho'
    rcases (owns_afterClaim hold).mp ho with ho | ⟨hj, _, ht⟩ <;>
      rcases (owns_afterClaim hold).mp ho' with ho' | ⟨hj', _, ht'⟩
    · exact h.one j j' p q t ho ho'
    · have hlt := (h.own j p t ho).2.1
      omega
    · have hlt := (h.own j' q t ho').2.1
      omega
    · exact hj.trans hj'.symm
  · intro j p t hj
    rcases push_afterClaim_cases hj with ⟨_, he⟩ | ⟨_, hj⟩
    · cases he
    · exact Nat.le_succ_of_le (h.read j p t hj)
  · intro j p t hj
    rcases push_afterClaim_cases hj with ⟨_, he⟩ | ⟨_, hj⟩
    · cases he
    have hle := (h.ready j p t hj).1
    exact ⟨Nat.le_succ_of_le hle, fun ht => absurd ht (by change t ≠ s.ring.tail + 1; omega)⟩
  · exact h.pop.congr rfl rfl (Nat.le_succ _) (fun _ _ hseq => hseq) hget
  have hhead : s.ring.head ≤ s.claims.length := by
    rw [← h.tail]
    exact h.head_le.trans hlo
  change s.popped = ((s.claims ++ [ptr]).take s.ring.head).map some
  rw [take_append_of_le_length hhead]
  exact h.popped

/-- The owner of a position writes its slot: first the pointer, then the sequence number, with
which it gives the position up. -/
theorem QueueOk.write (h : QueueOk k s) {i : ι} {ptr : α} {t : Nat} (ho : Owns s i ptr t)
    {x : MpscSlot α} {pc : PushPc α} (hx : x.ptr = some ptr)
    (hpc : (pc = .stored ptr t ∧ x.seq = t) ∨ (pc = .idle ∧ x.seq = t + 1)) :
    QueueOk k ((s.setSlot t x).setPush i pc) := by
  obtain ⟨hlo, hlt, hclaim, hseq⟩ := h.own i ptr t ho
  have hhi := h.hi
  have hle := h.lo
  -- whoever owns a position afterwards owned it before, and the others keep theirs
  have howns : ∀ {j p u}, Owns ((s.setSlot t x).setPush i pc) j p u →
      Owns s j p u ∧ (u = t → x.seq = t) := by
    intro j p u hown
    rcases owns_setPush_iff.mp hown with ⟨rfl, hj⟩ | ⟨hne, hj⟩
    · rcases hpc with ⟨rfl, hxs⟩ | ⟨rfl, _⟩
      · obtain ⟨rfl, rfl⟩ : ptr = p ∧ t = u := by simpa using hj
        exact ⟨ho, fun _ => hxs⟩
      · simp at hj
    · exact ⟨hj, fun hu => absurd (h.one j i p ptr t (hu ▸ hj) ho) hne⟩
  have hkeep : ∀ {j p u}, Owns s j p u → u ≠ t → Owns ((s.setSlot t x).setPush i pc) j p u := by
    intro j p u hj hne
    refine owns_setPush_iff.mpr (Or.inr ⟨?_, hj⟩)
    rintro rfl
    -- a thread is at one place only
    rcases ho with ho | ho <;> rcases hj with hj | hj <;> rw [ho] at hj <;> cases hj <;>
      exact hne rfl
  have hslot : ∀ u, released s ≤ u → u < released s + 2 ^ k → u ≠ t →
      (s.setSlot t x).slot u = s.slot u :=
    fun u hu hu' hne => slot_setSlot_of_ne h.mask _ hlo (by omega) hu hu' hne
  have hself : (s.setSlot t x).slot t = x := slot_setSlot_self t x
  refine ⟨h.two, h.mask, h.tail, hle, hhi, fun u hu hu' => ?_, fun u hu hu' => ?_,
    fun j p u hj => ?_, fun j p u hj => ?_,
    fun j j' p q u hj hj' => h.one j j' p q u (howns hj).1 (howns hj').1, fun j p u hj => ?_,
    fun j p u hj => ?_, ?_, h.popped⟩
  · change ((s.setSlot t x).slot u).seq = u
    change s.ring.tail ≤ u at hu
    rw [hslot u (hle.trans hu) hu' (by omega), h.free u hu hu']
  · change _ ∨ (((s.setSlot t x).slot u).seq = u + 1 ∧ ((s.setSlot t x).slot u).ptr = s.claims[u]?)
    by_cases hne : u = t
    · subst hne
      rw [hself]
      rcases hpc with ⟨rfl, _⟩ | ⟨_, hxs⟩
      · exact Or.inl ⟨i, ptr, owns_setPush_iff.mpr (Or.inl ⟨rfl, Or.inr rfl⟩)⟩
      · exact Or.inr ⟨hxs, hx.trans hclaim.symm⟩
    rw [hslot u hu (lt_of_lt_of_le hu' hhi) hne]
    rcases h.full u hu hu' with ⟨j, p, hj⟩ | hdone
    · exact Or.inl ⟨j, p, hkeep hj hne⟩
    · exact Or.inr hdone
  · obtain ⟨hj, hu⟩ := howns hj
    obtain ⟨h1, h2, h3, h4⟩ := h.own j p u hj
    refine ⟨h1, h2, h3, ?_⟩
    change ((s.setSlot t x).slot u).seq = u
    by_cases hne : u = t
    · subst hne
      rw [hself, hu rfl]
    · rw [hslot u h1 (by omega) hne, h4]
  · change ((s.setSlot t x).slot u).ptr = some p
    rcases push_setPush_cases hj with ⟨_, he⟩ | ⟨hne, hj⟩
    · rcases hpc with ⟨rfl, _⟩ | ⟨rfl, _⟩
      · cases he
        rw [hself, hx]
      · cases he
    have hu : u ≠ t := fun hu => hne (h.one j i p ptr t (Or.inr (hu ▸ hj)) ho)
    obtain ⟨h1, h2, _⟩ := h.own j p u (Or.inr hj)
    rw [hslot u h1 (by omega) hu]
    exact h.stored j p u hj
  · rcases push_setPush_cases hj with ⟨_, he⟩ | ⟨_, hj⟩
    · rcases hpc with ⟨rfl, _⟩ | ⟨rfl, _⟩ <;> cases he
    · exact h.read j p u hj
  · rcases push_setPush_cases hj with ⟨_, he⟩ | ⟨_, hj⟩
    · rcases hpc with ⟨rfl, _⟩ | ⟨rfl, _⟩ <;> cases he
    · exact h.ready j p u hj
  refine h.pop.congr rfl rfl (Nat.le_refl _) (fun hrel hlt' hseq' => ?_) fun _ _ => rfl
  have hne : s.ring.head ≠ t := by
    rintro he
    rw [he] at hseq'
    omega
  change ((s.setSlot t x).slot s.ring.head).seq = _
  rw [hslot _ (Nat.le_of_eq hrel) (by omega) hne, hseq']

end Producer

/-! ## Steps of the consumer -/

section Consumer

variable {k : Nat} {s : ShardQueue ι α}

theorem QueueOk.setPop (h : QueueOk k s) {pc : PopPc α}
    (hrel : released { s with pop := pc } = released s)
    (hpop : PopOk { s with pop := pc }) : QueueOk k { s with pop := pc } where
  two := h.two
  mask := h.mask
  tail := h.tail
  lo := hrel ▸ h.lo
  hi := hrel ▸ h.hi
  free := hrel ▸ h.free
  full := hrel ▸ h.full
  own := hrel ▸ h.own
  stored := h.stored
  one := h.one
  read := h.read
  ready := hrel ▸ h.ready
  pop := hpop
  popped := h.popped

theorem QueueOk.popStoreSeq (h : QueueOk k s) {hd : Nat} {ptr : Option α}
    (hpc : s.pop = .taken hd ptr) :
    QueueOk k { s.setSlot hd { s.slot hd with seq := hd + s.ring.mask + 1 } with
      pop := .freed hd ptr } := by
  have hknown := h.pop
  unfold PopOk at hknown
  rw [hpc] at hknown
  obtain ⟨rfl, hlt, hseq, hptr⟩ := hknown
  have hrel : released s = s.ring.head := by unfold released; rw [hpc]
  have hpos := Nat.two_pow_pos k
  have hhi := h.hi
  have hnext : s.ring.head + s.ring.mask + 1 = s.ring.head + 2 ^ k := by
    rw [h.mask]
    omega
  rw [hnext]
  generalize hx : ({ s.slot s.ring.head with seq := s.ring.head + 2 ^ k } : MpscSlot α) = x
  have hself : ((s.setSlot s.ring.head x).slot (s.ring.head + 2 ^ k)).seq =
      s.ring.head + 2 ^ k := by
    have hmask : (s.setSlot s.ring.head x).ring.mask = 2 ^ k - 1 := h.mask
    have hlap : (s.setSlot s.ring.head x).slot (s.ring.head + 2 ^ k) =
        (s.setSlot s.ring.head x).slot s.ring.head := by
      rw [slot_eq hmask, slot_eq hmask, Nat.add_mod_right]
    rw [hlap, slot_setSlot_self, ← hx]
  have hslot : ∀ u, s.ring.head < u → u < s.ring.head + 2 ^ k →
      (s.setSlot s.ring.head x).slot u = s.slot u :=
    fun u hu hu' => slot_setSlot_of_ne h.mask _ (Nat.le_refl _) (by omega) hu.le hu' (by omega)
  -- the position that is given back is written, so nobody owns it
  have hfree : ∀ j p u, Owns s j p u → s.ring.head < u := by
    intro j p u ho
    obtain ⟨h1, _, _, h4⟩ := h.own j p u ho
    rcases Nat.lt_or_eq_of_le (hrel ▸ h1) with hlt' | heq
    · exact hlt'
    · rw [← heq] at h4
      omega
  refine ⟨h.two, h.mask, h.tail, hlt, ?_, fun u hu hu' => ?_, fun u hu hu' => ?_,
    fun j p u ho => ?_, fun j p u hj => ?_, h.one, h.read, fun j p u hj => ?_,
    ⟨rfl, hlt, hptr⟩, h.popped⟩
  · change s.ring.tail ≤ s.ring.head + 1 + 2 ^ k
    omega
  · change ((s.setSlot s.ring.head x).slot u).seq = u
    change s.ring.tail ≤ u at hu
    change u < s.ring.head + 1 + 2 ^ k at hu'
    by_cases he : u = s.ring.head + 2 ^ k
    · rw [he, hself]
    · rw [hslot u (by omega) (by omega), h.free u hu (by omega)]
  · change _ ∨ (((s.setSlot s.ring.head x).slot u).seq = u + 1 ∧
      ((s.setSlot s.ring.head x).slot u).ptr = s.claims[u]?)
    change s.ring.head + 1 ≤ u at hu
    change u < s.ring.tail at hu'
    rw [hslot u hu (by omega)]
    exact h.full u (by omega) hu'
  · obtain ⟨_, h2, h3, h4⟩ := h.own j p u ho
    have hlt' := hfree j p u ho
    refine ⟨hlt', h2, h3, ?_⟩
    change ((s.setSlot s.ring.head x).slot u).seq = u
    rw [hslot u hlt' (by omega), h4]
  · obtain ⟨_, h2, _⟩ := h.own j p u (Or.inr hj)
    change ((s.setSlot s.ring.head x).slot u).ptr = some p
    rw [hslot u (hfree j p u (Or.inr hj)) (by omega)]
    exact h.stored j p u hj
  · obtain ⟨h1, h2⟩ := h.ready j p u hj
    refine ⟨h1, fun hu => ?_⟩
    have hu' := h2 hu
    change u < s.ring.head + 1 + 2 ^ k
    omega

/-- A pop returns the oldest pointer. -/
theorem QueueOk.popStoreHead (h : QueueOk k s) {hd : Nat} {ptr : Option α}
    (hpc : s.pop = .freed hd ptr) :
    QueueOk k { s with
      ring := { s.ring with head := hd + 1 }
      pop := .idle
      popped := s.popped ++ [ptr] } := by
  have hknown := h.pop
  unfold PopOk at hknown
  rw [hpc] at hknown
  obtain ⟨rfl, hlt, hptr⟩ := hknown
  have hrel : released s = s.ring.head + 1 := by unfold released; rw [hpc]
  have hlen : s.ring.head < s.claims.length := by rw [← h.tail]; exact hlt
  refine ⟨h.two, h.mask, h.tail, ?_, ?_, ?_, ?_, ?_, h.stored, h.one, h.read, ?_, trivial, ?_⟩
  · exact hrel ▸ h.lo
  · exact hrel ▸ h.hi
  · exact hrel ▸ h.free
  · exact hrel ▸ h.full
  · exact hrel ▸ h.own
  · exact hrel ▸ h.ready
  change s.popped ++ [ptr] = (s.claims.take (s.ring.head + 1)).map some
  rw [h.popped, hptr, List.getElem?_eq_getElem hlen, take_succ_eq_append_getElem hlen, map_append]
  rfl

end Consumer

/-! ## The queue -/

/-- The queue a state of the ring stands for. -/
def toFifo (k : Nat) (s : ShardQueue ι α) : Fifo α where
  cap := 2 ^ k
  items := s.claims.drop (released s)
  ins := s.claims
  outs := s.claims.take (released s)

section Refinement

variable [DecidableEq ι] {k : Nat} {s s' : ShardQueue ι α}

theorem enqueue_claim (h : QueueOk k s) {i : ι} {ptr : α}
    (hpc : s.push i = .ready ptr s.ring.tail) :
    (toFifo k s).enqueue ptr = some (toFifo k (afterClaim s i ptr)) := by
  have hroom := (h.ready i ptr _ hpc).2 rfl
  have hlo := h.lo
  rw [h.tail] at hroom hlo
  have hlen : (s.claims.drop (released s)).length < 2 ^ k := by
    rw [length_drop]
    omega
  have hrel : released (afterClaim s i ptr) = released s := rfl
  have hclaims : (afterClaim s i ptr).claims = s.claims ++ [ptr] := rfl
  simp only [Fifo.enqueue, toFifo, hlen, if_true, hrel, hclaims, drop_append_of_le_length hlo,
    take_append_of_le_length hlo]

omit [DecidableEq ι] in
theorem dequeue_popStoreSeq (h : QueueOk k s) {hd : Nat} {ptr : Option α}
    (hpc : s.pop = .taken hd ptr) (x : MpscSlot α) :
    (toFifo k s).dequeue = some (toFifo k { s.setSlot hd x with pop := .freed hd ptr }) := by
  have hknown := h.pop
  unfold PopOk at hknown
  rw [hpc] at hknown
  obtain ⟨rfl, hlt, _⟩ := hknown
  have hrel : released s = s.ring.head := by unfold released; rw [hpc]
  have hlen : s.ring.head < s.claims.length := by rw [← h.tail]; exact hlt
  have hdrop : s.claims.drop s.ring.head = s.claims[s.ring.head] :: s.claims.drop (s.ring.head + 1) :=
    drop_eq_getElem_cons hlen
  have hnext : toFifo k { s.setSlot s.ring.head x with pop := .freed s.ring.head ptr } =
      ⟨2 ^ k, s.claims.drop (s.ring.head + 1), s.claims, s.claims.take (s.ring.head + 1)⟩ := rfl
  rw [hnext, take_succ_eq_append_getElem hlen]
  simp only [Fifo.dequeue, toFifo, hrel, hdrop]

omit [DecidableEq ι] in
theorem QueueOk.popStutter (h : QueueOk k s) {pc : PopPc α}
    (hrel : released { s with pop := pc } = released s) (hpop : PopOk { s with pop := pc }) :
    QueueOk k { s with pop := pc } ∧ Fifo.Step (toFifo k s) (toFifo k { s with pop := pc }) := by
  refine ⟨h.setPop hrel hpop, ?_⟩
  have heq : toFifo k { s with pop := pc } = toFifo k s := by simp only [toFifo, hrel]
  rw [heq]
  exact .stutter

/-- A step of the ring keeps its order and is one of the queue. -/
theorem QueueOk.step (h : QueueOk k s) {l : QueueLabel ι α} (hstep : s.step l = some s') :
    QueueOk k s' ∧ Fifo.Step (toFifo k s) (toFifo k s') := by
  have hknown := h.pop
  unfold PopOk at hknown
  cases l with
  | call i ptr =>
    cases hpc : s.push i <;> simp only [ShardQueue.step, hpc] at hstep <;> cases hstep
    have hold : Idle (s.push i) := by rw [hpc]; simp [Idle]
    exact ⟨h.setPush hold (by simp [Idle]) (by simp) (by simp), .stutter⟩
  | loadTail i =>
    cases hpc : s.push i <;> simp only [ShardQueue.step, hpc] at hstep <;> cases hstep
    have hold : Idle (s.push i) := by rw [hpc]; simp [Idle]
    refine ⟨h.setPush hold (by simp [Idle]) (fun p t he => ?_) (by simp), .stutter⟩
    cases he
    exact Nat.le_refl _
  | loadSeq i =>
    cases hpc : s.push i with
    | read ptr t =>
      have hold : Idle (s.push i) := by rw [hpc]; simp [Idle]
      have ht := h.read i ptr t hpc
      simp only [ShardQueue.step, hpc] at hstep
      split at hstep
      · rename_i hdiff
        cases hstep
        refine ⟨h.setPush hold (by simp [Idle]) (by simp) (fun p u he => ?_), .stutter⟩
        cases he
        exact ⟨ht, h.lt_of_diff_zero hdiff⟩
      · split at hstep <;> cases hstep <;>
          exact ⟨h.setPush hold (by simp [Idle]) (by simp) (by simp), .stutter⟩
    | _ => simp [ShardQueue.step, hpc] at hstep
  | cas i spurious =>
    cases hpc : s.push i with
    | ready ptr t =>
      simp only [ShardQueue.step, hpc] at hstep
      split at hstep
      · rename_i hwin
        cases hstep
        obtain ⟨rfl, _⟩ := hwin
        exact ⟨h.claim hpc, .enqueue ptr (enqueue_claim h hpc)⟩
      · cases hstep
        have hold : Idle (s.push i) := by rw [hpc]; simp [Idle]
        exact ⟨h.setPush hold (by simp [Idle]) (by simp) (by simp), .stutter⟩
    | _ => simp [ShardQueue.step, hpc] at hstep
  | storePtr i =>
    cases hpc : s.push i <;> simp only [ShardQueue.step, hpc] at hstep <;> cases hstep
    have hseq := (h.own i _ _ (Or.inl hpc)).2.2.2
    exact ⟨h.write (Or.inl hpc) rfl (Or.inl ⟨rfl, hseq⟩), .stutter⟩
  | storeSeq i =>
    cases hpc : s.push i <;> simp only [ShardQueue.step, hpc] at hstep <;> cases hstep
    exact ⟨h.write (Or.inr hpc) (h.stored _ _ _ hpc) (Or.inr ⟨rfl, rfl⟩), .stutter⟩
  | popHead =>
    cases hpc : s.pop <;> simp only [ShardQueue.step, hpc] at hstep <;> cases hstep
    exact h.popStutter (by simp only [released, hpc]) rfl
  | popSeq =>
    cases hpc : s.pop with
    | read hd =>
      rw [hpc] at hknown
      simp only [ShardQueue.step, hpc] at hstep
      split at hstep
      · rename_i hseq
        cases hstep
        have hbelow : hd < s.ring.tail := by
          -- a full slot is the one of a claimed position
          by_contra hge
          have hlo := h.lo
          have hr : released s = hd := by unfold released; rw [hpc]; exact hknown.symm
          have hfree := h.free hd (by omega) (by have := Nat.two_pow_pos k; omega)
          omega
        exact h.popStutter (by simp only [released, hpc]) ⟨hknown, hbelow, hseq⟩
      · cases hstep
        exact h.popStutter (by simp only [released, hpc]) trivial
    | _ => simp [ShardQueue.step, hpc] at hstep
  | popPtr =>
    cases hpc : s.pop with
    | ready hd =>
      rw [hpc] at hknown
      obtain ⟨rfl, hlt, hseq⟩ := hknown
      simp only [ShardQueue.step, hpc, Option.some.injEq] at hstep
      subst hstep
      have hr : released s = s.ring.head := by unfold released; rw [hpc]
      -- the slot is written, so it holds what was claimed
      have hptr : (s.slot s.ring.head).ptr = s.claims[s.ring.head]? := by
        rcases h.full s.ring.head (Nat.le_of_eq hr) hlt with ⟨i, p, ho⟩ | hdone
        · have := (h.own i p _ ho).2.2.2
          omega
        · exact hdone.2
      exact h.popStutter (by simp only [released, hpc]) ⟨rfl, hlt, hseq, hptr⟩
    | _ => simp [ShardQueue.step, hpc] at hstep
  | popStoreSeq =>
    cases hpc : s.pop <;> simp only [ShardQueue.step, hpc] at hstep <;> cases hstep
    exact ⟨h.popStoreSeq hpc, .dequeue (dequeue_popStoreSeq h hpc _)⟩
  | popStoreHead =>
    cases hpc : s.pop with
    | freed hd ptr =>
      simp only [ShardQueue.step, hpc, Option.some.injEq] at hstep
      have hrel : released s' = released s := by
        rw [← hstep]
        simp only [released, hpc]
      have hclaims : s'.claims = s.claims := by rw [← hstep]
      have hok : QueueOk k s' := hstep ▸ h.popStoreHead hpc
      have heq : toFifo k s' = toFifo k s := by simp only [toFifo, hrel, hclaims]
      rw [heq]
      exact ⟨hok, .stutter⟩
    | _ => simp [ShardQueue.step, hpc] at hstep

theorem QueueOk.run {power : Nat} {ls : List (QueueLabel ι α)} {s : ShardQueue ι α}
    (hrun : RunOf ShardQueue.step (fun _ _ => True) (ShardQueue.init ι α power) ls s) :
    QueueOk (max power 4) s ∧ (toFifo (max power 4) s).Ok :=
  Fifo.invariant_of_simulation (toFifo (max power 4)) (QueueOk (max power 4))
    (fun _ _ _ h _ hs => (h.step hs).1) (fun _ _ _ h _ hs => (h.step hs).2) hrun
    (QueueOk.init power) (Fifo.Ok.empty _)

/-- The shard queue is a lossless bounded FIFO. The pointers popped are the pushed ones in the order
of their compare-exchanges, the ring holds the rest, a push fails only when the ring is full, and a
pop only when the pointer at the head is not written yet. -/
theorem shard_queue_fifo (power : Nat) {ls : List (QueueLabel ι α)} {s : ShardQueue ι α}
    (hrun : RunOf ShardQueue.step (fun _ _ => True) (ShardQueue.init ι α power) ls s) :
    s.popped = (s.claims.take s.popped.length).map some ∧
    (s.claims.drop (released s)).length ≤ 2 ^ max power 4 ∧
    (∀ i ptr t, s.push i = .read ptr t → s.diff t < 0 →
      s.popped.length + 2 ^ max power 4 ≤ s.claims.length) ∧
    (∀ hd, s.pop = .read hd → (s.slot hd).seq ≠ hd + 1 → hd = s.popped.length ∧
      (hd = s.claims.length ∨ ∃ i ptr, Owns s i ptr hd)) := by
  obtain ⟨h, hfifo⟩ := QueueOk.run hrun
  have hhead : s.ring.head ≤ s.claims.length := by
    rw [← h.tail]
    exact h.head_le.trans h.lo
  have hlen : s.popped.length = s.ring.head := by
    rw [h.popped, length_map, length_take, Nat.min_eq_left hhead]
  refine ⟨?_, hfifo.room, fun i ptr t hpc hdiff => ?_, fun hd hpc hseq => ?_⟩
  · rw [hlen]
    exact h.popped
  · have hfull := h.full_of_diff_neg (h.read i ptr t hpc) hdiff
    have hle := h.head_le
    rw [hlen, ← h.tail]
    omega
  have hknown := h.pop
  unfold PopOk at hknown
  rw [hpc] at hknown
  have hr : released s = hd := by unfold released; rw [hpc]; exact hknown.symm
  refine ⟨hknown.trans hlen.symm, ?_⟩
  rcases Nat.lt_or_ge hd s.ring.tail with hlt | hge
  · rcases h.full hd (Nat.le_of_eq hr) hlt with hown | ⟨hdone, _⟩
    · exact Or.inr hown
    · exact absurd hdone hseq
  · have hlo := h.lo
    have htail := h.tail
    exact Or.inl (by omega)

end Refinement

def twoPushes : List (QueueLabel Bool Nat) :=
  [.call true 7, .loadTail true, .loadSeq true, .cas true false,
    .call false 8, .loadTail false, .loadSeq false, .cas false true, .loadTail false,
    .loadSeq false, .cas false false,
    .storePtr true, .storeSeq true, .popHead, .popSeq, .popPtr, .popStoreSeq, .popStoreHead,
    .popHead]

/-- The second producer claims its slot and stalls: behind 7 the queue looks empty. -/
theorem shard_queue_fifo_twoPushes :
    ∃ s, RunOf ShardQueue.step (fun _ _ => True) (ShardQueue.init Bool Nat 2) twoPushes s ∧
      s.popped = [some 7] ∧ s.claims = [7, 8] ∧
      (1 = s.claims.length ∨ ∃ i ptr, Owns s i ptr 1) := by
  obtain ⟨s, hs, hpop, hclaims, hpc, hseq⟩ : ∃ s, twoPushes.foldlM ShardQueue.step
      (ShardQueue.init Bool Nat 2) = some s ∧ s.popped = [some 7] ∧ s.claims = [7, 8] ∧
      s.pop = .read 1 ∧ (s.slot 1).seq ≠ 2 := ⟨_, rfl, rfl, rfl, rfl, by decide⟩
  have hrun : RunOf ShardQueue.step (fun _ _ => True) (ShardQueue.init Bool Nat 2) twoPushes s :=
    RunOf.of_foldlM hs fun _ _ _ => trivial
  exact ⟨s, hrun, hpop, hclaims, ((shard_queue_fifo 2 hrun).2.2.2 1 hpc hseq).2⟩

end KvTier.Analysis
