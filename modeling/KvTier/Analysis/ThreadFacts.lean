import KvTier.Model.Threads
import KvTier.Analysis.Placement

/-!
# What the threads of an open cache can do

`ThreadCase` lists the steps with the state after each.
-/

namespace KvTier.Analysis

open Function KvTier.Lib KvTier.Model Option

/-- Every step, with the state after it. -/
inductive ThreadCase (s : Threads) : ThreadLabel → Threads → Prop
  | writer (l : WLabel) (ws : Writers) (hws : s.pl.ws.step l = some ws)
      (hsub : ∀ d room, l ≠ .submit d room) (hcomp : ∀ d c e n, l ≠ .complete d c e n) :
      ThreadCase s (.writer l) { s with pl := { s.pl with ws := ws } }
  | refused (d now : Nat) (pl : Placing) (hpl : s.pl.submit d now = some pl)
      (hsame : pl.writes = s.pl.writes) : ThreadCase s (.submit d now) { s with pl := pl }
  | submit (d now : Nat) (pl : Placing) (w : Write) (hpl : s.pl.submit d now = some pl)
      (hw : pl.writes = s.pl.writes ++ [w]) :
      ThreadCase s (.submit d now) { s with
        pl := pl
        cur := update s.cur d (s.other d)
        other := update s.other d (some ⟨w, (pl.sp.rg d w.region).epoch⟩) }
  | complete (d : Nat) (isCur ioErr : Bool) (noNode crcs : List Nat) (now : Nat) (ws : Writers)
      (f : Flight) (led : Ledger) (readers : List Reader)
      (hws : s.pl.ws.step (.complete d isCur ioErr noNode) = some ws)
      (hf : s.flight d isCur = some f)
      (hpub : s.publish f ioErr noNode crcs now = some (led, readers)) :
      ThreadCase s (.complete d isCur ioErr noNode crcs now) { s with
        pl := { s.pl with ws := ws, sp := { s.pl.sp with led := led } }
        cur := if isCur then update s.cur d none else s.cur
        other := if isCur then s.other else update s.other d none
        readers := readers }
  | evict (path : Path) (led : Ledger) (hled : s.led.step (.evict path) = some led) :
      ThreadCase s (.evict path) (s.setLed led)
  | ttl (now : Nat) (led : Ledger) (hled : s.led.step (.ttl now) = some led) :
      ThreadCase s (.ttl now) (s.setLed led)
  | pin (path : Path) (lf : RadixLeaf) (led : Ledger)
      (hleaf : s.led.idx.tree.leafAt path = some lf) (hled : s.led.step (.pin path) = some led) :
      ThreadCase s (.pin path) { s.setLed led with readers := s.readers ++ [⟨path, lf, true⟩] }
  | unpin (i : Nat) (r : Reader) (led : Ledger) (hr : s.readers[i]? = some r)
      (hled : s.unpinned r = some led) :
      ThreadCase s (.unpin i) { s.setLed led with readers := s.readers.eraseIdx i }
  | gcLook (d i now : Nat) (hd : d < s.led.cfg.nDevs) (hi : i < s.led.cfg.regionCnt)
      (hstate : (s.rg d i).state = .frozen) (hlive : s.pl.sp.live d i = 0)
      (hold : (s.rg d i).baseTs + s.epochSecs < now) :
      ThreadCase s (.gcLook d i now) { s with gc := .trim d i }
  | gcPick (d i : Nat) (hd : d < s.led.cfg.nDevs) (hi : i < s.led.cfg.regionCnt)
      (hstate : (s.rg d i).state = .frozen) : ThreadCase s (.gcPick d i) { s with gc := .drop d i }
  | gcDrop (d i : Nat) (led : Ledger) (hgc : s.gc = .drop d i)
      (hled : s.led.step (.dropRegion d i) = some led) :
      ThreadCase s .gcDrop { s.setLed led with gc := .check d i }
  | gcCheck (d i : Nat) (hgc : s.gc = .check d i) :
      ThreadCase s .gcCheck { s with gc := if s.pl.sp.live d i = 0 then .trim d i else .idle }
  | gcTrim (d i : Nat) (hgc : s.gc = .trim d i) :
      ThreadCase s .gcTrim
        { s with gc := .idle, pl := { s.pl with sp := s.pl.sp.trimRegion d i } }

section Cases

variable {s s' : Threads}

theorem submit_threadCase {d now : Nat} (h : s.submit d now = some s') :
    ThreadCase s (.submit d now) s' := by
  unfold Threads.submit at h
  obtain ⟨pl, hpl, h⟩ := bind_eq_some_iff.1 h
  rcases submit_cases hpl with ⟨hsame, _⟩ | ⟨sp, w, _, hw, _⟩
  · rw [hsame, List.drop_length] at h
    cases h
    exact .refused d now pl hpl hsame
  · rw [hw, List.drop_left] at h
    cases h
    exact .submit d now pl w hpl hw

theorem complete_threadCase {d : Nat} {isCur ioErr : Bool} {noNode crcs : List Nat} {now : Nat}
    (h : s.complete d isCur ioErr noNode crcs now = some s') :
    ThreadCase s (.complete d isCur ioErr noNode crcs now) s' := by
  unfold Threads.complete at h
  obtain ⟨ws, hws, h⟩ := bind_eq_some_iff.1 h
  obtain ⟨f, hf, h⟩ := bind_eq_some_iff.1 h
  obtain ⟨⟨led, readers⟩, hpub, h⟩ := bind_eq_some_iff.1 h
  cases h
  exact .complete d isCur ioErr noNode crcs now ws f led readers hws hf hpub

theorem readers_threadCase {l : ThreadLabel} (hl : (∃ path, l = .pin path) ∨ ∃ i, l = .unpin i)
    (h : s.step l = some s') : ThreadCase s l s' := by
  rcases hl with ⟨path, rfl⟩ | ⟨i, rfl⟩
  · obtain ⟨lf, hleaf, h⟩ := bind_eq_some_iff.1 (show s.pin path = some s' from h)
    obtain ⟨led, hled, h⟩ := bind_eq_some_iff.1 h
    cases h
    exact .pin path lf led hleaf hled
  obtain ⟨r, hr, h⟩ := bind_eq_some_iff.1 (show s.unpin i = some s' from h)
  obtain ⟨led, hled, h⟩ := bind_eq_some_iff.1 h
  cases h
  exact .unpin i r led hr hled

theorem gcLook_threadCase {d i now : Nat} (h : s.gcLook d i now = some s') :
    ThreadCase s (.gcLook d i now) s' := by
  unfold Threads.gcLook at h
  split at h
  · rename_i hok
    obtain ⟨_, hd, hi, htrim, _, hold⟩ := hok
    simp only [Space.trimmable, Bool.and_eq_true, beq_iff_eq] at htrim
    cases h
    exact .gcLook d i now hd hi htrim.1 htrim.2 hold
  · cases h

theorem gcPick_threadCase {d i : Nat} (h : s.gcPick d i = some s') :
    ThreadCase s (.gcPick d i) s' := by
  unfold Threads.gcPick at h
  split at h
  · rename_i hok
    cases h
    exact .gcPick d i hok.2.1 hok.2.2.1 hok.2.2.2.1
  · cases h

theorem gc_threadCase {l : ThreadLabel} (hl : l = .gcDrop ∨ l = .gcCheck ∨ l = .gcTrim)
    (h : s.step l = some s') : ThreadCase s l s' := by
  rcases hl with rfl | rfl | rfl
  · simp only [Threads.step, Threads.gcDrop] at h
    split at h
    · rename_i d i hgc
      obtain ⟨led, hled, rfl⟩ := map_eq_some_iff.1 h
      exact .gcDrop d i led hgc hled
    · cases h
  · simp only [Threads.step, Threads.gcCheck] at h
    split at h
    · rename_i d i hgc
      cases h
      exact .gcCheck d i hgc
    · cases h
  simp only [Threads.step, Threads.gcTrim] at h
  split at h
  · rename_i d i hgc
    cases h
    exact .gcTrim d i hgc
  · cases h

/-- Every step is one of these. -/
theorem thread_step_cases {l : ThreadLabel} (h : s.step l = some s') : ThreadCase s l s' := by
  have hwriter : ∀ {l : WLabel}, (∀ d room, l ≠ .submit d room) →
      (∀ d c e n, l ≠ .complete d c e n) →
      (s.pl.ws.step l).map (fun ws => { s with pl := { s.pl with ws := ws } }) = some s' →
      ThreadCase s (.writer l) s' := by
    intro l hsub hcomp h
    obtain ⟨ws, hws, rfl⟩ := map_eq_some_iff.1 h
    exact .writer l ws hws hsub hcomp
  cases l with
  | writer l =>
    cases l with
    | submit d room => cases h
    | complete d c e n => cases h
    | _ => exact hwriter (fun _ _ => nofun) (fun _ _ _ _ => nofun) h
  | submit d now => exact submit_threadCase h
  | complete d isCur ioErr noNode crcs now => exact complete_threadCase h
  | evict path =>
    obtain ⟨led, hled, rfl⟩ := map_eq_some_iff.1 h
    exact .evict path led hled
  | ttl now =>
    obtain ⟨led, hled, rfl⟩ := map_eq_some_iff.1 h
    exact .ttl now led hled
  | pin path => exact readers_threadCase (.inl ⟨path, rfl⟩) h
  | unpin i => exact readers_threadCase (.inr ⟨i, rfl⟩) h
  | gcLook d i now => exact gcLook_threadCase h
  | gcPick d i => exact gcPick_threadCase h
  | gcDrop => exact gc_threadCase (.inl rfl) h
  | gcCheck => exact gc_threadCase (.inr (.inl rfl)) h
  | gcTrim => exact gc_threadCase (.inr (.inr rfl)) h

end Cases

/-! ## The buffers of the writers -/

section Buffers

variable {s s' : Writers} {d : Nat}

theorem busy_of_writer {l : WLabel} (h : s.step l = some s') (hsub : ∀ d room, l ≠ .submit d room)
    (hcomp : ∀ d c e n, l ≠ .complete d c e n) (d : Nat) :
    ((s.shards d).cur.busy = true → (s'.shards d).cur.busy = true) ∧
      (s'.shards d).other = (s.shards d).other := by
  rcases writers_step_cases h with ⟨a, ver, shape, _, rfl⟩ | ⟨i, _, hpush⟩ | ⟨d', _, _, hw⟩
  · have hsame : (s.put a ver shape).shards = s.shards := by
      unfold Writers.put
      simp only
      split
      · rfl
      · split <;> rfl
    rw [hsame]
    exact ⟨id, rfl⟩
  · obtain ⟨r, todo, _, _, _, rfl⟩ := push_cases hpush
    simp only [Writers.pushed, Writers.setShard, update_apply]
    split
    · rename_i hd
      subst hd
      exact ⟨id, rfl⟩
    · exact ⟨id, rfl⟩
  obtain ⟨w', gone, hstep, heq, _⟩ := hw
  rw [heq]
  simp only [Writers.setShard, update_apply]
  split
  · rename_i hd
    subst hd
    cases hstep with
    | skip | submit | refuse => exact absurd rfl (hsub _ _)
    | reapCur | reapOther => exact absurd rfl (hcomp _ _ _ _)
    | swap hpc hbusy => exact ⟨fun hb => (by rw [hbusy] at hb; cases hb), rfl⟩
    | _ => exact ⟨id, rfl⟩
  · exact ⟨id, rfl⟩

theorem shards_of_writerStep {l : WLabel} (hshard : Writers.shardOf l = some d)
    (h : s.step l = some s') :
    ∃ w' gone, ShardStep s.cfg (s.shards d) l w' gone ∧
      s'.shards = update s.shards d w' := by
  rcases writers_step_cases h with ⟨_, _, _, rfl, _⟩ | ⟨_, rfl, _⟩ | ⟨d', _, hd', hw⟩
  · cases hshard
  · cases hshard
  obtain rfl : d' = d := Option.some.inj (hd'.symm.trans hshard)
  obtain ⟨w', gone, hstep, heq, _⟩ := hw
  refine ⟨w', gone, hstep, ?_⟩
  rw [heq]
  rfl

theorem cur_free_of_submit {room : Bool} (hok : ShardOk (s.shards d))
    (h : s.step (.submit d room) = some s') : (s.shards d).cur.busy = false := by
  obtain ⟨w', gone, hstep, _⟩ := shards_of_writerStep rfl h
  have hcur := hok.cur
  cases hstep with
  | skip hpc hreqs =>
    rw [hpc] at hcur
    exact hcur.2
  | submit hpc hbusy hreqs => exact hbusy
  | refuse hpc hbusy hreqs => exact hbusy

theorem shards_of_submit (hok : ShardOk (s.shards d)) (h : s.step (.submit d true) = some s') :
    s'.shards = update s.shards d
      { s.shards d with
        pc := .wait
        cur := (s.shards d).other
        other := { (s.shards d).cur with busy := true } } := by
  obtain ⟨w', gone, hstep, heq⟩ := shards_of_writerStep rfl h
  have hcur := hok.cur
  cases hstep with
  | skip hpc hreqs =>
    rw [hpc] at hcur
    exact absurd hreqs hcur.1
  | submit hpc hbusy hreqs => exact heq

theorem shards_of_complete {isCur ioErr : Bool} {noNode : List Nat}
    (h : s.step (.complete d isCur ioErr noNode) = some s') :
    s'.shards = update s.shards d
      (if isCur then { s.shards d with cur := .empty } else { s.shards d with other := .empty }) := by
  obtain ⟨w', gone, hstep, heq⟩ := shards_of_writerStep rfl h
  rw [heq]
  cases hstep <;> rfl

end Buffers

/-! ## The regions -/

/-- The region keeps its epoch and stays in use. -/
structure Kept (h h' : RegionHdr) : Prop where
  epoch : h'.epoch = h.epoch
  used : h.state ≠ .free → h'.state ≠ .free

theorem Kept.refl (h : RegionHdr) : Kept h h := ⟨rfl, id⟩

theorem freeze_kept (s : Space) (d now d' i : Nat) : Kept (s.rg d' i) ((s.freeze d now).rg d' i) := by
  rw [Space.rg_freeze]
  split
  · rename_i h
    obtain ⟨rfl, rfl⟩ := h
    exact ⟨rfl, fun _ => nofun⟩
  · exact Kept.refl _

section Submit

variable {s s' : Placing} {d now : Nat}

section Submit

variable (h : s.submit d now = some s')
include h

theorem submit_kept {d' i : Nat} (hcur : d' = d → i = (s.sp.cur d).region) :
    Kept (s.sp.rg d' i) (s'.sp.rg d' i) := by
  rcases submit_cases h with ⟨_, _, _, ⟨_, hsp⟩ | ⟨_, _, hnext⟩⟩ | ⟨sp, w, _, _, _, hplace, hsp⟩
  · rw [hsp]
    exact Kept.refl _
  · rw [hnext.rg_of_ne fun _ => nofun]
    exact freeze_kept _ _ _ _ _
  have hrg : s'.sp.rg d' i = sp.rg d' i := by
    rw [(Prod.mk.inj hplace).1]
    rfl
  rw [hrg]
  rcases hsp with ⟨rfl, _⟩ | ⟨_, s1, next, hnext, rfl⟩
  · exact Kept.refl _
  have hne : d' = d → next ≠ i := by
    intro hd
    rw [hcur hd]
    exact hnext.ne_cursor
  rw [Space.rg_openRegion, if_neg fun hc => hne hc.1 hc.2.symm, hnext.rg_of_ne fun hd => ?_]
  · exact freeze_kept _ _ _ _ _
  · exact fun he => hne hd (Option.some.inj he)

/-- A submission changes regions of its device only, and only if it rotates. -/
theorem rg_of_submit {d' : Nat} (i : Nat)
    (hstay : d' = d →
      (s.sp.cur d).nextPage + batchPages (s.ws.shards d).cur.reqs ≤ s.sp.cfg.regionSizePages) :
    s'.sp.rg d' i = s.sp.rg d' i := by
  have hfreeze : d' ≠ d → (s.sp.freeze d now).rg d' i = s.sp.rg d' i := by
    intro hd
    rw [Space.rg_freeze, if_neg fun hx => hd hx.1]
  rcases submit_cases h with ⟨_, _, _, ⟨_, hsp⟩ | ⟨_, hover, hnext⟩⟩ |
    ⟨sp, w, _, _, hreqs, hplace, hsp⟩
  · rw [hsp]
  · have hd : d' ≠ d := fun hx => absurd (hstay hx) (Nat.not_le.2 hover)
    rw [hnext.rg_of_ne fun hx => absurd hx hd, hfreeze hd]
  have hrg : s'.sp.rg d' i = sp.rg d' i := by
    rw [(Prod.mk.inj hplace).1]
    rfl
  rw [hrg]
  rcases hsp with ⟨rfl, _⟩ | ⟨hover, s1, next, hnext, rfl⟩
  · rfl
  · rw [hreqs] at hover
    have hd : d' ≠ d := fun hx => absurd (hstay hx) (Nat.not_le.2 hover)
    rw [Space.rg_openRegion, if_neg fun hx => hd hx.1, hnext.rg_of_ne fun hx => absurd hx hd,
      hfreeze hd]

theorem cur_of_refused (hsame : s'.writes = s.writes) :
    s'.sp.cur = s.sp.cur := by
  rcases submit_cases h with ⟨_, _, _, ⟨_, hsp⟩ | ⟨_, _, hnext⟩⟩ | ⟨sp, w, _, hw, _⟩
  · rw [hsp]
  · rw [hnext.cur]
    rfl
  · rw [hw] at hsame
    exact absurd hsame (by simp)

theorem buffers_of_refused (hsame : s'.writes = s.writes) :
    ∃ w', s'.ws.shards = update s.ws.shards d w' ∧ w'.other = (s.ws.shards d).other := by
  rcases submit_cases h with ⟨_, room, hws, hwhy⟩ | ⟨sp, w, _, hw, _⟩
  · obtain ⟨w', gone, hstep, heq⟩ := shards_of_writerStep rfl hws
    refine ⟨w', heq, ?_⟩
    cases hstep with
    | skip => rfl
    | refuse => rfl
    | submit hpc hbusy hreqs =>
      rcases hwhy with ⟨hnil, _⟩ | ⟨hroom, _⟩
      · exact absurd hnil hreqs
      · cases hroom
  · rw [hw] at hsame
    exact absurd hsame (by simp)

theorem cur_of_submit {w : Write} (hw : s'.writes = s.writes ++ [w]) :
    w.dev = d ∧ w.region = (s'.sp.cur d).region ∧ w.reqs = (s.ws.shards d).cur.reqs ∧
      ∀ d', d' ≠ d → s'.sp.cur d' = s.sp.cur d' := by
  rcases submit_cases h with ⟨hsame, _⟩ | ⟨sp, w', _, hw', hreqs, hplace, hsp⟩
  · rw [hsame] at hw
    exact absurd hw (by simp)
  obtain rfl : w' = w := by
    rw [hw'] at hw
    exact List.singleton_inj.1 (List.append_cancel_left hw)
  obtain ⟨hsp', hweq⟩ := Prod.mk.inj hplace
  refine ⟨by rw [hweq], ?_, hreqs, fun d' hd => ?_⟩
  · rw [hsp', hweq]
    simp
  rw [hsp']
  simp only [update_of_ne hd]
  rcases hsp with ⟨rfl, _⟩ | ⟨_, s1, next, hnext, rfl⟩
  · rfl
  · rw [Space.cur_openRegion, if_neg hd, hnext.cur]
    rfl

theorem region_of_submit {w : Write} (hw : s'.writes = s.writes ++ [w]) :
    ((s.sp.cur d).nextPage + batchPages (s.ws.shards d).cur.reqs ≤ s.sp.cfg.regionSizePages ∧
      w.region = (s.sp.cur d).region ∧ s'.sp.rg d w.region = s.sp.rg d w.region) ∨
    (s.sp.cfg.regionSizePages < (s.sp.cur d).nextPage + batchPages (s.ws.shards d).cur.reqs ∧
      (s'.sp.rg d w.region).state = .opened) := by
  rcases submit_cases h with ⟨hsame, _⟩ | ⟨sp, w', _, hw', hreqs, hplace, hsp⟩
  · rw [hsame] at hw
    exact absurd hw (by simp)
  obtain rfl : w' = w := by
    rw [hw'] at hw
    exact List.singleton_inj.1 (List.append_cancel_left hw)
  obtain ⟨hsp', hweq⟩ := Prod.mk.inj hplace
  have hregion : w'.region = (sp.cur d).region := by rw [hweq]
  have hrg : s'.sp.rg d w'.region = sp.rg d w'.region := by
    rw [hsp']
    rfl
  rw [← hreqs]
  rcases hsp with ⟨rfl, hfits⟩ | ⟨hover, s1, next, hnext, rfl⟩
  · exact .inl ⟨hfits, hregion, hrg⟩
  · refine .inr ⟨hover, ?_⟩
    rw [Space.cur_openRegion, if_pos rfl] at hregion
    rw [hrg, Space.rg_openRegion, if_pos ⟨rfl, hregion⟩]

theorem ws_of_submit :
    (∃ room, s.ws.step (.submit d room) = some s'.ws) ∧
      (s'.writes ≠ s.writes → s.ws.step (.submit d true) = some s'.ws) := by
  rcases submit_cases h with ⟨hsame, room, hws, _⟩ | ⟨sp, w, hws, _⟩
  · exact ⟨⟨room, hws⟩, fun hne => absurd hsame hne⟩
  · exact ⟨⟨true, hws⟩, fun _ => hws⟩

end Submit

end Submit

/-! ## Batches in flight -/

/-- A batch in flight is busy, and the older one in the region of the cursor. -/
structure FlightsOk (s : Threads) : Prop where
  shards : ∀ d, ShardOk (s.pl.ws.shards d)
  cur : ∀ d f, s.cur d = some f → (s.pl.ws.shards d).cur.busy = true
  other : ∀ d f, s.other d = some f → (s.pl.ws.shards d).other.busy = true ∧
    f.write.region = (s.pl.sp.cur d).region

theorem FlightsOk.start (cfg : WriterConfig) (sp : Space) (epochSecs : Nat) :
    FlightsOk (Threads.start cfg sp epochSecs) where
  shards d := ⟨rfl, inFlight_empty⟩
  cur d f h := by cases h
  other d f h := by cases h

section Flights

variable {s s' : Threads}

theorem FlightsOk.congr (h : FlightsOk s) (hws : s'.pl.ws = s.pl.ws) (hcur : s'.cur = s.cur)
    (hother : s'.other = s.other) (hsp : s'.pl.sp.cur = s.pl.sp.cur) : FlightsOk s' where
  shards := by rw [hws]; exact h.shards
  cur := by rw [hws, hcur]; exact h.cur
  other := by rw [hws, hother, hsp]; exact h.other

theorem FlightsOk.cur_none (h : FlightsOk s) {d now : Nat} {pl : Placing}
    (hpl : s.pl.submit d now = some pl) : s.cur d = none := by
  obtain ⟨⟨room, hws⟩, _⟩ := ws_of_submit hpl
  have hfree := cur_free_of_submit (h.shards d) hws
  cases hc : s.cur d with
  | none => rfl
  | some f =>
    rw [h.cur d f hc] at hfree
    cases hfree

theorem FlightsOk.step {l : ThreadLabel} (h : FlightsOk s) (hstep : ThreadCase s l s') :
    FlightsOk s' := by
  cases hstep with
  | writer l ws hws hsub hcomp =>
    refine ⟨(cfg_shards_step h.shards hws).2, fun d f hf => ?_, fun d f hf => ?_⟩
    · exact (busy_of_writer hws hsub hcomp d).1 (h.cur d f hf)
    · rw [(busy_of_writer hws hsub hcomp d).2]
      exact h.other d f hf
  | refused d now pl hpl hsame =>
    obtain ⟨⟨room, hws⟩, _⟩ := ws_of_submit hpl
    -- Only the current buffer of the writer changes, and nothing was in flight in it.
    have hnone := h.cur_none hpl
    obtain ⟨w', hshards, hother⟩ := buffers_of_refused hpl hsame
    refine ⟨(cfg_shards_step h.shards hws).2, fun d' f hf => ?_, fun d' f hf => ?_⟩
    · show (pl.ws.shards d').cur.busy = true
      by_cases hd : d' = d
      · subst hd
        rw [hnone] at hf
        cases hf
      · rw [hshards, update_of_ne hd]
        exact h.cur d' f hf
    show (pl.ws.shards d').other.busy = true ∧ f.write.region = (pl.sp.cur d').region
    rw [cur_of_refused hpl hsame, hshards, update_apply]
    split
    · rename_i hd
      subst hd
      rw [hother]
      exact h.other d' f hf
    · exact h.other d' f hf
  | submit d now pl w hpl hw =>
    have hws := (ws_of_submit hpl).2 (by rw [hw]; simp)
    have hshards := shards_of_submit (h.shards d) hws
    obtain ⟨_, hregion, _, hcurs⟩ := cur_of_submit hpl hw
    refine ⟨(cfg_shards_step h.shards hws).2, fun d' f hf => ?_, fun d' f hf => ?_⟩
    · show (pl.ws.shards d').cur.busy = true
      rw [hshards]
      by_cases hd : d' = d
      · subst hd
        simp only [update_self] at hf ⊢
        exact (h.other d' f hf).1
      · simp only [update_of_ne hd] at hf ⊢
        exact h.cur d' f hf
    show (pl.ws.shards d').other.busy = true ∧ f.write.region = (pl.sp.cur d').region
    rw [hshards]
    by_cases hd : d' = d
    · subst hd
      simp only [update_self, Option.some.injEq] at hf ⊢
      rw [← hf]
      exact ⟨trivial, hregion⟩
    · simp only [update_of_ne hd] at hf ⊢
      rw [hcurs d' hd]
      exact h.other d' f hf
  | complete d isCur ioErr noNode crcs now ws f led readers hws hf hpub =>
    have hshards := shards_of_complete hws
    refine ⟨(cfg_shards_step h.shards hws).2, fun d' f' hf' => ?_, fun d' f' hf' => ?_⟩
    · show (ws.shards d').cur.busy = true
      rw [hshards]
      by_cases hd : d' = d
      · subst hd
        cases isCur with
        | true => simp at hf'
        | false => simpa using h.cur d' f' hf'
      rw [update_of_ne hd]
      refine h.cur d' f' ?_
      cases isCur with
      | true => simpa [update_of_ne hd] using hf'
      | false => exact hf'
    show (ws.shards d').other.busy = true ∧ f'.write.region = (s.pl.sp.cur d').region
    rw [hshards]
    by_cases hd : d' = d
    · subst hd
      cases isCur with
      | true => simpa using h.other d' f' hf'
      | false => simp at hf'
    rw [update_of_ne hd]
    refine h.other d' f' ?_
    cases isCur with
    | true => exact hf'
    | false => simpa [update_of_ne hd] using hf'
  | _ => exact h.congr rfl rfl rfl rfl

end Flights

end KvTier.Analysis
