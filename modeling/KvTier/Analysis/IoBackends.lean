import KvTier.Model.IoRing
import KvTier.Lib.Runs

/-!
# What the two I/O backends promise

A synchronous submit that returns has dropped the reference of its context once, and the context has
no error exactly if all bytes were transferred.
-/

namespace KvTier.Analysis

open KvTier.Lib KvTier.Model List Option

/-! ## The synchronous mode -/

theorem transferLoop_spec {op : IoOp} {len : Nat} (results : List SysResult) {done done' : Nat}
    {rc : Int} (hle : done ≤ len) (h : transferLoop op len done results = some (rc, done')) :
    rc = 0 ↔ done' = len := by
  induction results generalizing done with
  | nil =>
    unfold transferLoop at h
    split_ifs at h with hdone
    obtain ⟨rfl, rfl⟩ := Prod.mk.inj (Option.some.inj h)
    exact iff_of_true rfl (le_antisymm hle hdone)
  | cons x rest ih =>
    unfold transferLoop at h
    split_ifs at h with hdone
    · obtain ⟨rfl, rfl⟩ := Prod.mk.inj (Option.some.inj h)
      exact iff_of_true rfl (le_antisymm hle hdone)
    cases x with
    | error errno =>
      simp only at h
      split_ifs at h with hzero
      obtain ⟨rfl, rfl⟩ := Prod.mk.inj (Option.some.inj h)
      refine iff_of_false (by omega) (by omega)
    | eintr => exact ih hle h
    | bytes n =>
      simp only at h
      split_ifs at h with hmany hend
      · obtain ⟨rfl, rfl⟩ := Prod.mk.inj (Option.some.inj h)
        exact iff_of_false (by decide) (by omega)
      · exact ih (by omega) h

theorem syncSubmit_spec {op : IoOp} {npages : Nat} {results : List SysResult} {c : IoCtx}
    {done : Nat} (h : syncSubmit op npages results = some (c, done)) :
    c.inflight = 0 ∧ (c.firstErr = 0 ↔ done = npages * pageSize) := by
  obtain ⟨⟨rc, done'⟩, hloop, heq⟩ := map_eq_some_iff.1 h
  obtain ⟨rfl, rfl⟩ := Prod.mk.inj heq
  have hspec := transferLoop_spec results (Nat.zero_le _) hloop
  by_cases hrc : rc = 0
  · subst hrc
    exact ⟨rfl, iff_of_true rfl (hspec.1 rfl)⟩
  · rw [if_pos hrc]
    exact ⟨rfl, iff_of_false hrc fun hdone => hrc (hspec.2 hdone)⟩

/-! ## The ring -/

/-- Where the requests of a ring are. -/
def Ring.places (s : Ring) : List IoReq :=
  s.waiting.toList ++ s.sq ++ s.kernel ++ s.cq.map Prod.fst ++ s.reaped.map Prod.fst ++ s.refused

/-- How often a context was unreferenced. -/
def Ring.unrefs (s : Ring) (x : Nat) : Nat := (s.reaped.map (·.1.ctx)).count x

/-- Every request is in one place, and its context counts it. -/
structure RingInv (s : Ring) : Prop where
  places : s.submitted.Perm (Ring.places s)
  nodup : (s.submitted.map (·.ctx)).Nodup
  failures : s.failures = s.sq.length + s.refused.length
  inflight : ∀ x, (s.ctxs x).inflight = 1 - (Ring.unrefs s x : Int)
  error : s.failures = 0 → ∀ x, (s.ctxs x).firstErr ≠ 0 ↔ ∃ c ∈ s.reaped, c.1.ctx = x ∧ c.2 < 0

theorem ringInv_init (qd : Nat) : RingInv (Ring.init qd) where
  places := .nil
  nodup := nodup_nil
  failures := rfl
  inflight _ := rfl
  error _ x := by simp [Ring.init, IoCtx.prepared]

theorem ctxs_setCtx (s : Ring) (x : Nat) (f : IoCtx → IoCtx) (y : Nat) :
    (s.setCtx x f).ctxs y = if y = x then f (s.ctxs y) else s.ctxs y := by
  by_cases h : y = x
  · subst h
    simp [Ring.setCtx]
  · simp [Ring.setCtx, h]

@[simp]
theorem inflight_setErr (c : IoCtx) (e : Int) : (c.setErr e).inflight = c.inflight := by
  unfold IoCtx.setErr
  split_ifs <;> rfl

theorem firstErr_setErr_ne_zero (c : IoCtx) {e : Int} (he : e ≠ 0) : (c.setErr e).firstErr ≠ 0 := by
  unfold IoCtx.setErr
  split_ifs with h
  · exact he
  · exact fun h0 => h (.inl h0)

theorem places_of_count {s s' : Ring} (h : s.submitted.Perm (Ring.places s))
    (hsub : s'.submitted = s.submitted)
    (hcount : ∀ r, (Ring.places s').count r = (Ring.places s).count r) :
    s'.submitted.Perm (Ring.places s') := by
  rw [hsub]
  exact h.trans (perm_iff_count.2 fun r => (hcount r).symm)

section Step

variable {s s' : Ring}

/-- A new request. -/
theorem RingInv.submit (h : RingInv s) {r : IoReq} (hstep : s.step (.submit r) = some s') :
    RingInv s' := by
  simp only [Ring.step] at hstep
  split_ifs at hstep with hnew
  obtain rfl := Option.some.inj hstep
  refine ⟨?_, ?_, h.failures, h.inflight, h.error⟩
  · refine perm_iff_count.2 fun x => ?_
    have hx := perm_iff_count.1 h.places x
    simp only [Ring.places, hnew.1, toList_none, toList_some, count_append, count_nil] at hx ⊢
    omega
  rw [map_append]
  refine nodup_append.2 ⟨h.nodup, by simp, ?_⟩
  rintro x hx y hy rfl
  obtain ⟨r', hr', rfl⟩ := List.mem_map.1 hx
  exact hnew.2 r' hr' (by simpa using hy)

/-- A full queue. -/
theorem RingInv.full (h : RingInv s) {fails : Bool} (hstep : s.step (.full fails) = some s') :
    RingInv s' := by
  simp only [Ring.step] at hstep
  split at hstep
  · cases hstep
  rename_i r hw
  split_ifs at hstep with hroom hf
  · obtain rfl := Option.some.inj hstep
    refine ⟨places_of_count h.places rfl fun x => ?_, h.nodup, ?_, h.inflight, fun h0 => by cases h0⟩
    · simp only [Ring.places, hw, toList_none, toList_some, count_append, count_nil]
      omega
    · have hf := h.failures
      simp only [length_append, length_singleton]
      omega
  · exact Option.some.inj hstep ▸ h

/-- An entry is queued. -/
theorem RingInv.queue (h : RingInv s) {errno : Option Nat}
    (hstep : s.step (.queue errno) = some s') : RingInv s' := by
  simp only [Ring.step] at hstep
  split at hstep
  · cases hstep
  rename_i r hw
  split_ifs at hstep with hfull
  have hf := h.failures
  cases errno with
  | some e =>
    obtain rfl := Option.some.inj hstep
    refine ⟨places_of_count h.places rfl fun x => ?_, h.nodup, ?_, fun x => ?_, fun h0 => by cases h0⟩
    · simp only [Ring.places, Ring.setCtx, hw, toList_none, toList_some, count_append, count_nil]
      omega
    · simp only [Ring.setCtx, length_append, length_singleton]
      omega
    rw [ctxs_setCtx]
    split_ifs
    · rw [inflight_setErr]
      exact h.inflight x
    · exact h.inflight x
  | none =>
    obtain rfl := Option.some.inj hstep
    obtain ⟨x, xs, hcons⟩ : ∃ x xs, s.sq ++ [r] = x :: xs :=
      exists_cons_of_ne_nil (by simp)
    have hlen := congrArg List.length hcons
    have hcount : ∀ y, s.sq.count y + [r].count y = [x].count y + xs.count y := by
      intro y
      rw [← count_append, hcons, ← count_append, singleton_append]
    simp only [hcons, tail_cons, List.head?_cons, toList_some]
    simp only [length_append, length_cons, length_nil] at hlen
    refine ⟨places_of_count h.places rfl fun y => ?_, h.nodup, ?_, h.inflight, h.error⟩
    · have hy := hcount y
      simp only [Ring.places, hw, toList_none, toList_some, count_append, count_nil]
      omega
    · show s.failures = xs.length + s.refused.length
      omega

/-- The kernel posts a result. -/
theorem RingInv.complete (h : RingInv s) {i : Nat} {res : Int}
    (hstep : s.step (.complete i res) = some s') : RingInv s' := by
  simp only [Ring.step] at hstep
  split at hstep
  · cases hstep
  rename_i r hr
  obtain rfl := Option.some.inj hstep
  obtain ⟨hi, hget⟩ := List.getElem?_eq_some_iff.1 hr
  refine ⟨places_of_count h.places rfl fun x => ?_, h.nodup, h.failures, h.inflight, h.error⟩
  have hk := perm_iff_count.1 (getElem_cons_eraseIdx_perm hi) x
  rw [hget] at hk
  simp only [Ring.places, map_append, map_cons, map_nil, count_append,
    count_cons, count_nil] at hk ⊢
  omega

/-- A result is reaped. -/
theorem RingInv.reap (h : RingInv s) (hstep : s.step .reap = some s') : RingInv s' := by
  simp only [Ring.step] at hstep
  split at hstep
  · cases hstep
  rename_i r res rest hcq
  obtain rfl := Option.some.inj hstep
  refine ⟨places_of_count h.places rfl fun x => ?_, h.nodup, h.failures, fun x => ?_,
    fun h0 x => ?_⟩
  · simp only [Ring.places, Ring.setCtx, hcq, map_append, map_cons, map_nil,
      count_append, count_cons, count_nil]
    omega
  · have hx := h.inflight x
    rw [ctxs_setCtx]
    simp only [Ring.unrefs, Ring.setCtx, map_append, map_cons, map_nil,
      count_append, count_singleton] at hx ⊢
    by_cases hxr : x = r.ctx
    · subst hxr
      simp only [↓reduceIte, beq_self_eq_true, IoCtx.unref]
      split_ifs
      · rw [inflight_setErr, hx]
        push_cast
        omega
      · rw [hx]
        push_cast
        omega
    · have hne : ¬ (r.ctx == x) = true := by simpa using fun h => hxr h.symm
      rw [if_neg hxr, if_neg hne, hx]
      simp
  have hx := h.error h0 x
  rw [ctxs_setCtx]
  simp only [Ring.setCtx, mem_append, mem_singleton, or_and_right, exists_or, exists_eq_left]
  by_cases hxr : x = r.ctx
  · subst hxr
    simp only [↓reduceIte, IoCtx.unref, true_and]
    split_ifs with hneg
    · exact iff_of_true (firstErr_setErr_ne_zero _ (by omega)) (.inr hneg)
    · rw [hx, or_iff_left hneg]
  · rw [if_neg hxr, hx, or_iff_left fun hno => hxr hno.1.symm]

theorem RingInv.step {l : RingLabel} (h : RingInv s) (hstep : s.step l = some s') :
    RingInv s' := by
  cases l with
  | submit r => exact h.submit hstep
  | full fails => exact h.full hstep
  | queue errno => exact h.queue hstep
  | complete i res => exact h.complete hstep
  | reap => exact h.reap hstep

end Step

/-! ## Agreement -/

/-- Nothing is in flight. -/
def Quiet (s : Ring) : Prop := s.waiting = none ∧ s.kernel = [] ∧ s.cq = []

instance (s : Ring) : Decidable (Quiet s) := inferInstanceAs (Decidable (_ ∧ _ ∧ _))

/-- All bytes of a request were transferred. -/
def Transferred (s : Ring) (r : IoReq) : Prop :=
  ∃ c ∈ s.reaped, c.1 = r ∧ (r.npages * pageSize : Nat) ≤ c.2

/-- A request is complete and its context tells the truth. -/
def Settled (s : Ring) (r : IoReq) : Prop :=
  (s.ctxs r.ctx).inflight = 0 ∧ ((s.ctxs r.ctx).firstErr = 0 ↔ Transferred s r)

/-- No submission failed, and a transfer that succeeded is complete. -/
def KernelOk (s : Ring) : Prop :=
  s.failures = 0 ∧ ∀ c ∈ s.reaped, c.2 < 0 ∨ (c.1.npages * pageSize : Nat) ≤ c.2

section Settle

variable {s : Ring}

theorem RingInv.quiet (h : RingInv s) (hq : Quiet s) :
    s.submitted.Perm (s.sq ++ s.reaped.map Prod.fst ++ s.refused) := by
  have hp := h.places
  simp only [Ring.places, hq.1, hq.2.1, hq.2.2, toList_none, nil_append, map_nil,
    List.append_nil] at hp
  exact hp

theorem RingInv.unref_pos (h : RingInv s) {x : Nat} (hx : (s.ctxs x).inflight = 0) :
    x ∈ s.reaped.map (·.1.ctx) := by
  have hcount := h.inflight x
  rw [hx] at hcount
  refine count_pos_iff.1 ?_
  change 0 < Ring.unrefs s x
  omega

theorem RingInv.nodup_reaped (h : RingInv s) (hq : Quiet s) :
    (s.reaped.map (·.1.ctx)).Nodup := by
  have hnd := ((h.quiet hq).map (·.ctx)).nodup_iff.1 h.nodup
  simp only [map_append, List.map_map] at hnd
  exact (nodup_append.1 (nodup_append.1 hnd).1).2.1

theorem RingInv.failures_eq_zero (h : RingInv s) (hq : Quiet s)
    (hall : ∀ r ∈ s.submitted, (s.ctxs r.ctx).inflight = 0) : s.failures = 0 := by
  have hperm := h.quiet hq
  have hnd := (hperm.map (·.ctx)).nodup_iff.1 h.nodup
  simp only [map_append, List.map_map] at hnd
  have hleft : ∀ r ∈ s.sq ++ s.refused, False := by
    intro r hr
    have hsub : r ∈ s.submitted := hperm.mem_iff.2 (by
      simp only [mem_append] at hr ⊢
      exact hr.elim (fun h => .inl (.inl h)) .inr)
    have hreaped := h.unref_pos (hall r hsub)
    obtain ⟨hfront, -, hback⟩ := nodup_append.1 hnd
    rcases mem_append.1 hr with hr | hr
    · exact (nodup_append.1 hfront).2.2 _ (List.mem_map_of_mem hr) _ hreaped rfl
    · exact hback _ (mem_append_right _ hreaped) _ (List.mem_map_of_mem hr) rfl
  have hnil : s.sq ++ s.refused = [] := eq_nil_iff_forall_not_mem.2 hleft
  obtain ⟨hsq, href⟩ := append_eq_nil_iff.1 hnil
  rw [h.failures, hsq, href]
  rfl

theorem RingInv.reaped_of_submitted (h : RingInv s) (hq : Quiet s) (hf : s.failures = 0)
    {r : IoReq} (hr : r ∈ s.submitted) :
    (∃ c ∈ s.reaped, c.1 = r) ∧ (s.ctxs r.ctx).inflight = 0 := by
  have hlens := h.failures
  rw [hf] at hlens
  have hsq : s.sq = [] := length_eq_zero_iff.1 (by omega)
  have href : s.refused = [] := length_eq_zero_iff.1 (by omega)
  have hmem := (h.quiet hq).mem_iff.1 hr
  rw [hsq, href, nil_append, List.append_nil] at hmem
  obtain ⟨c, hc, hcr⟩ := List.mem_map.1 hmem
  refine ⟨⟨c, hc, hcr⟩, ?_⟩
  have hone : Ring.unrefs s r.ctx = 1 :=
    count_eq_one_of_mem (h.nodup_reaped hq) (List.mem_map.2 ⟨c, hc, by rw [hcr]⟩)
  rw [h.inflight, hone]
  rfl

/-- With all settled, a request reports an error exactly if the kernel did. -/
theorem RingInv.result (h : RingInv s) (hq : Quiet s) (hf : s.failures = 0) {c : IoReq × Int}
    (hc : c ∈ s.reaped) :
    ((s.ctxs c.1.ctx).firstErr = 0 ↔ ¬ c.2 < 0) ∧
      (Transferred s c.1 ↔ (c.1.npages * pageSize : Nat) ≤ c.2) := by
  have hsame : ∀ c' ∈ s.reaped, c'.1.ctx = c.1.ctx → c' = c := by
    intro c' hc' heq
    exact inj_on_of_nodup_map (h.nodup_reaped hq) hc' hc heq
  refine ⟨?_, ?_⟩
  · rw [← not_iff_not, not_not]
    refine (h.error hf _).trans ⟨?_, fun hneg => ⟨c, hc, rfl, hneg⟩⟩
    rintro ⟨c', hc', heq, hneg⟩
    exact hsame c' hc' heq ▸ hneg
  refine ⟨?_, fun hle => ⟨c, hc, rfl, hle⟩⟩
  rintro ⟨c', hc', heq, hle⟩
  rw [hsame c' hc' (by rw [heq])] at hle
  exact hle

end Settle

/-- When the ring behaves like the synchronous mode. A synchronous submit that returns has
dropped the reference of its context once, and the context has no error exactly if all bytes were
transferred. -/
theorem io_backends_agree_iff (qd : Nat) (ls : List RingLabel) (s : Ring)
    (hrun : RunOf Ring.step (fun _ _ => True) (Ring.init qd) ls s) (hq : Quiet s) :
    (∀ op npages results c done, syncSubmit op npages results = some (c, done) →
        c.inflight = 0 ∧ (c.firstErr = 0 ↔ done = npages * pageSize)) ∧
      ((∀ r ∈ s.submitted, Settled s r) ↔ KernelOk s) := by
  have h := RunOf.invariant RingInv (fun _ _ _ h _ hs => h.step hs) hrun (ringInv_init qd)
  refine ⟨fun _ _ _ _ _ => syncSubmit_spec, ?_, ?_⟩
  · intro hall
    have hf := h.failures_eq_zero hq fun r hr => (hall r hr).1
    refine ⟨hf, fun c hc => ?_⟩
    have hsub : c.1 ∈ s.submitted := (h.quiet hq).mem_iff.2
      (mem_append_left _ (mem_append_right _ (List.mem_map_of_mem hc)))
    obtain ⟨herr, htrans⟩ := h.result hq hf hc
    have htruth := (hall c.1 hsub).2
    rw [herr, htrans] at htruth
    by_cases hneg : c.2 < 0
    · exact .inl hneg
    · exact .inr (htruth.1 hneg)
  rintro ⟨hf, hres⟩ r hr
  obtain ⟨⟨c, hc, rfl⟩, hdone⟩ := h.reaped_of_submitted hq hf hr
  obtain ⟨herr, htrans⟩ := h.result hq hf hc
  refine ⟨hdone, ?_⟩
  rw [herr, htrans]
  rcases hres c hc with hneg | hfull
  · exact iff_of_false (not_not.2 hneg) (not_le.2 (hneg.trans_le (Int.natCast_nonneg _)))
  · exact iff_of_true (not_lt.2 ((Int.natCast_nonneg _).trans hfull)) hfull

def oneRequest (npages : Nat) (res : Int) : List RingLabel :=
  [.submit ⟨0, npages⟩, .queue none, .complete 0 res, .reap]

def vainRequest (npages : Nat) : List RingLabel := [.submit ⟨0, npages⟩, .queue (some 11)]

/-- A request of two pages that is transferred at once. -/
theorem io_backends_agree_full : ∃ s,
    RunOf Ring.step (fun _ _ => True) (Ring.init 128) (oneRequest 2 8192) s ∧
      s.submitted = [⟨0, 2⟩] ∧ Settled s ⟨0, 2⟩ := by
  have hfold : ((oneRequest 2 8192).foldlM Ring.step (Ring.init 128)).map (fun s : Ring =>
      decide (Quiet s ∧ s.submitted = [⟨0, 2⟩] ∧ s.failures = 0 ∧ s.reaped = [(⟨0, 2⟩, 8192)])) =
      some true := by decide +kernel
  obtain ⟨s, hs, hres⟩ := map_eq_some_iff.1 hfold
  obtain ⟨hq, hsub, hf, hreaped⟩ := of_decide_eq_true hres
  have hrun : RunOf Ring.step (fun _ _ => True) (Ring.init 128) (oneRequest 2 8192) s :=
    RunOf.of_foldlM hs fun _ _ _ => trivial
  have hok : KernelOk s := by
    refine ⟨hf, fun c hc => .inr ?_⟩
    rw [hreaped, mem_singleton] at hc
    rw [hc]
    decide
  exact ⟨s, hrun, hsub, ((io_backends_agree_iff 128 _ s hrun hq).2.2 hok) _
    (by rw [hsub]; exact mem_singleton_self _)⟩

/-- The ring loses a reference, and takes a short transfer for a full one. After a submit that
enters the kernel in vain the context keeps its reference, so whoever waits for it waits for ever.
-/
theorem ring_request_not_settled :
    (∃ s, RunOf Ring.step (fun _ _ => True) (Ring.init 128) (vainRequest 2) s ∧ Quiet s ∧
      (s.ctxs 0).inflight = 1) ∧
    (∃ s, RunOf Ring.step (fun _ _ => True) (Ring.init 128) (oneRequest 2 4096) s ∧ Quiet s ∧
      (s.ctxs 0).inflight = 0 ∧ (s.ctxs 0).firstErr = 0 ∧ ¬ Transferred s ⟨0, 2⟩) ∧
    syncSubmit .write 2 [.bytes 4096, .bytes 4096] = some (⟨0, 0⟩, 8192) := by
  refine ⟨?_, ?_, by decide +kernel⟩
  · have hfold : ((vainRequest 2).foldlM Ring.step (Ring.init 128)).map (fun s : Ring =>
        decide (Quiet s ∧ (s.ctxs 0).inflight = 1)) = some true := by decide +kernel
    obtain ⟨s, hs, hres⟩ := map_eq_some_iff.1 hfold
    obtain ⟨hq, hctx⟩ := of_decide_eq_true hres
    exact ⟨s, RunOf.of_foldlM hs fun _ _ _ => trivial, hq, hctx⟩
  have hfold : ((oneRequest 2 4096).foldlM Ring.step (Ring.init 128)).map (fun s : Ring =>
      decide (Quiet s ∧ s.ctxs 0 = ⟨0, 0⟩ ∧ s.reaped = [(⟨0, 2⟩, 4096)])) = some true := by
    decide +kernel
  obtain ⟨s, hs, hres⟩ := map_eq_some_iff.1 hfold
  obtain ⟨hq, hctx, hreaped⟩ := of_decide_eq_true hres
  refine ⟨s, RunOf.of_foldlM hs fun _ _ _ => trivial, hq, by rw [hctx], by rw [hctx], ?_⟩
  rintro ⟨c, hc, -, hle⟩
  rw [hreaped, mem_singleton] at hc
  rw [hc] at hle
  exact absurd hle (by decide)

end KvTier.Analysis
