import KvTier.Analysis.JournalFacts
import KvTier.Lib.Runs
import KvTier.Model.JournalIo

/-!
# Journals under failing page writes

What `journal_append` can do is said once (`AppendCase`): the record is too long, the area is full,
the write of the full page fails, the page that was written was the last one, or the record is
staged on this page or the next one.
-/

namespace KvTier.Analysis

open Function KvTier.Lib KvTier.Model List Option

/-! ## What an append can do -/

def written (s : JournalIo) (o : PageOutcome) : JournalIo :=
  (s.writePage s.jour.log.curPage s.first s.jour.log.stage o).1

/-- The ways `journal_append` ends. -/
inductive AppendCase (s : JournalIo) (r : JournalRec) (o : PageOutcome) : JournalIo × Int → Prop
  | tooLong (hlong : pageSize < jrecTotal r) : AppendCase s r o (s, -kvEinval)
  | full (hfit : jrecTotal r ≤ pageSize) (hfull : s.jour.journalPages ≤ s.jour.log.curPage) :
      AppendCase s r o (s.drop, kvEfull)
  | writeFails (hfit : jrecTotal r ≤ pageSize) (hroom : s.jour.log.curPage < s.jour.journalPages)
      (hpage : pageSize < s.jour.curOff + jrecTotal r) (ho : o ≠ .done) :
      AppendCase s r o (written s o, o.rc)
  | lastPage (hfit : jrecTotal r ≤ pageSize) (hroom : s.jour.log.curPage < s.jour.journalPages)
      (hpage : pageSize < s.jour.curOff + jrecTotal r) (ho : o = .done)
      (hlast : s.jour.journalPages ≤ s.jour.log.curPage + 1) :
      AppendCase s r o ((written s o).turnPage.drop, kvEfull)
  | turned (hfit : jrecTotal r ≤ pageSize) (hpage : pageSize < s.jour.curOff + jrecTotal r)
      (ho : o = .done) (hnext : s.jour.log.curPage + 1 < s.jour.journalPages) :
      AppendCase s r o ((written s o).turnPage.stage r, kvEok)
  | staged (hroom : s.jour.log.curPage < s.jour.journalPages)
      (hpage : s.jour.curOff + jrecTotal r ≤ pageSize) : AppendCase s r o (s.stage r, kvEok)

theorem rc_eq_kvEok_iff (o : PageOutcome) : o.rc = kvEok ↔ o = .done := by
  cases o with
  | done => simp [PageOutcome.rc]
  | failed errno left =>
    have hpos := errno.pos
    simp only [PageOutcome.rc, kvEok, reduceCtorEq, iff_false]
    omega

theorem flush_eq {s : JournalIo} (h : s.jour.curOff ≠ 0) (o : PageOutcome) :
    s.flush o = (written s o, o.rc) := by
  unfold JournalIo.flush
  rw [if_neg h]
  rfl

/-- What `journal_append` can do. -/
theorem append_cases {s : JournalIo} {r : JournalRec} {o : PageOutcome} {res : JournalIo × Int}
    (h : s.append r o = res) : AppendCase s r o res := by
  subst h
  unfold JournalIo.append
  split
  · exact .tooLong ‹_›
  rename_i hfit
  split
  · exact .full (by omega) ‹_›
  rename_i hroom
  split
  · rename_i hpage
    have hoff : s.jour.curOff ≠ 0 := by omega
    unfold JournalIo.nextPage
    simp only [flush_eq hoff, ne_eq, rc_eq_kvEok_iff]
    by_cases ho : o = .done
    · simp only [ho, not_true_eq_false, if_false]
      by_cases hlast : s.jour.journalPages ≤ s.jour.log.curPage + 1
      · rw [if_pos (by exact hlast)]
        exact .lastPage (by omega) (by omega) hpage rfl hlast
      · rw [if_neg (by exact hlast)]
        exact .turned (by omega) hpage rfl (by omega)
    simp only [ho, not_false_eq_true, if_true]
    have hrc : o.rc ≠ kvEok := fun h => ho ((rc_eq_kvEok_iff o).1 h)
    simp only [hrc, not_false_eq_true, if_true]
    exact .writeFails (by omega) (by omega) hpage ho
  · exact .staged (by omega) (by omega)

/-! ## The area -/

/-- Writes stay in the journal area, and the stage on one page. -/
structure AreaOk (journalPage n : Nat) (s : JournalIo) : Prop where
  base : s.journalPage = journalPage
  size : s.jour.journalPages = n
  cur : s.jour.log.curPage ≤ n
  last : s.jour.log.curPage = n → s.jour.curOff = 0
  off : s.jour.curOff = (s.jour.log.stage.map jrecTotal).sum
  page : s.jour.curOff ≤ pageSize
  writes : ∀ w ∈ s.writes, journalPage ≤ w.page ∧ w.page < journalPage + n

section Area

variable {journalPage n : Nat} {s : JournalIo}

theorem AreaOk.init (devId journalPage n : Nat) (pages : Nat → List JournalRec) :
    AreaOk journalPage n (.init devId journalPage n pages) where
  base := rfl
  size := rfl
  cur := Nat.zero_le n
  last _ := rfl
  off := rfl
  page := Nat.zero_le _
  writes _ hw := absurd hw not_mem_nil

section Area

variable (h : AreaOk journalPage n s)
include h

theorem AreaOk.writePage {p : Nat} (hp : p < n) (first : Nat) (recs : List JournalRec)
    (o : PageOutcome) :
    AreaOk journalPage n (s.writePage p first recs o).1 where
  base := h.base
  size := h.size
  cur := h.cur
  last := h.last
  off := h.off
  page := h.page
  writes w hw := by
    rcases mem_append.1 hw with hw | hw
    · exact h.writes w hw
    obtain rfl := mem_singleton.1 hw
    have hbase := h.base
    simp only
    omega

theorem AreaOk.flush (o : PageOutcome) :
    AreaOk journalPage n (s.flush o).1 := by
  by_cases hoff : s.jour.curOff = 0
  · unfold JournalIo.flush
    rw [if_pos hoff]
    exact h
  rw [flush_eq hoff]
  have hcur := h.cur
  have hlast := mt h.last hoff
  exact h.writePage (by omega) _ _ o

theorem AreaOk.turnPage (hlt : s.jour.log.curPage < n) :
    AreaOk journalPage n s.turnPage where
  base := h.base
  size := h.size
  cur := hlt
  last _ := rfl
  off := rfl
  page := Nat.zero_le _
  writes := h.writes

theorem AreaOk.drop : AreaOk journalPage n s.drop :=
  ⟨h.base, h.size, h.cur, h.last, h.off, h.page, h.writes⟩

theorem AreaOk.stage {r : JournalRec} (hlt : s.jour.log.curPage < n)
    (hfit : s.jour.curOff + jrecTotal r ≤ pageSize) :
    AreaOk journalPage n (s.stage r) where
  base := h.base
  size := h.size
  cur := h.cur
  last he := absurd he (Nat.ne_of_lt hlt)
  off := by
    simp only [JournalIo.stage, journalStage, PagedLog.push, map_append, sum_append,
      map_cons, map_nil, sum_cons, sum_nil, h.off]
    rfl
  page := hfit
  writes := h.writes

theorem AreaOk.append (r : JournalRec) (o : PageOutcome) :
    AreaOk journalPage n (s.append r o).1 := by
  have hsize := h.size
  have hwrite : s.jour.log.curPage < s.jour.journalPages → AreaOk journalPage n (written s o) :=
    fun hroom => h.writePage (by omega) _ _ o
  generalize hres : s.append r o = res
  cases append_cases hres with
  | tooLong => exact h
  | full => exact h.drop
  | writeFails _ hroom _ _ => exact hwrite hroom
  | lastPage _ hroom _ _ _ => exact ((hwrite hroom).turnPage (by rw [← hsize]; exact hroom)).drop
  | turned hfit _ _ hnext =>
    refine ((hwrite (by omega)).turnPage ?_).stage ?_ ?_
    · rw [← hsize]
      exact Nat.lt_of_succ_lt hnext
    · rw [← hsize]
      exact hnext
    · simpa [JournalIo.turnPage] using hfit
  | staged hroom hpage => exact h.stage (by omega) hpage

end Area

theorem AreaOk.wipeFrom (os : Nat → PageOutcome) (p k : Nat) (hpk : p + k ≤ n)
    (h : AreaOk journalPage n s) : AreaOk journalPage n (JournalIo.wipeFrom os s p k).1 := by
  induction k generalizing s p with
  | zero => exact h
  | succ k ih =>
    have hone := h.writePage (p := p) (by omega) s.nextNo [] (os p)
    simp only [JournalIo.wipeFrom]
    split
    · exact hone
    · exact ih (p + 1) (by omega) hone

theorem AreaOk.reset (h : AreaOk journalPage n s) (os : Nat → PageOutcome) :
    AreaOk journalPage n (s.reset os).1 := by
  have hwiped := h.wipeFrom os 0 s.jour.journalPages (by have := h.size; omega)
  unfold JournalIo.reset
  simp only
  split
  · exact hwiped
  · exact ⟨hwiped.base, hwiped.size, Nat.zero_le n, fun _ => rfl, rfl, Nat.zero_le _, hwiped.writes⟩

theorem AreaOk.step (h : AreaOk journalPage n s) (op : JournalCall) :
    AreaOk journalPage n (s.step op) := by
  cases op with
  | append r o => exact h.append r o
  | flush o => exact h.flush o
  | reset os => exact h.reset os

theorem stagedSpans_le (off : Nat) (rs : List JournalRec) {span : Nat × Nat}
    (h : span ∈ stagedSpans off rs) :
    off ≤ span.1 ∧ span.1 + span.2 ≤ off + (rs.map jrecTotal).sum := by
  induction rs generalizing off with
  | nil => cases h
  | cons r rs ih =>
    rw [map_cons, sum_cons]
    rcases mem_cons.1 h with rfl | h
    · simp only
      omega
    · have hrest := ih (off + jrecTotal r) h
      omega

end Area

/-- The journal stays in its area, after any calls and with any of its page writes failing: the
cursor is at most at the end of the area, where nothing is staged; every staged record is inside its
page; and every page write was to a page of the area. -/
theorem journal_stays_in_area (devId journalPage n : Nat) (pages : Nat → List JournalRec)
    (ops : List JournalCall) :
    let s := ops.foldl JournalIo.step (.init devId journalPage n pages)
    s.jour.log.curPage ≤ n ∧ s.jour.curOff ≤ pageSize ∧
      (s.jour.log.curPage = n → s.jour.curOff = 0) ∧
      (∀ span ∈ stagedSpans 0 s.jour.log.stage, span.1 + span.2 ≤ pageSize) ∧
      ∀ w ∈ s.writes, journalPage ≤ w.page ∧ w.page < journalPage + n := by
  intro s
  have hs : AreaOk journalPage n s := by
    -- every call keeps the invariant: induction on the calls, from the last one
    have hrun : ∀ ops : List JournalCall, AreaOk journalPage n
        (ops.foldl JournalIo.step (.init devId journalPage n pages)) := by
      intro ops
      induction ops using List.reverseRecOn with
      | nil => exact .init devId journalPage n pages
      | append_singleton ops op ih =>
        rw [foldl_append]
        exact ih.step op
    exact hrun ops
  refine ⟨hs.cur, hs.page, hs.last, fun span hspan => ?_, hs.writes⟩
  have hle := (stagedSpans_le 0 s.jour.log.stage hspan).2
  have hoff := hs.off
  have hpage := hs.page
  omega

/-! ## Records that are dropped -/

/-- The append of a record is dropped for want of room. -/
def DropsRec (s : JournalIo) (r : JournalRec) (o : PageOutcome) : Prop :=
  jrecTotal r ≤ pageSize ∧
    (s.jour.journalPages ≤ s.jour.log.curPage ∨
      pageSize < s.jour.curOff + jrecTotal r ∧ o = .done ∧
        s.jour.journalPages ≤ s.jour.log.curPage + 1)

instance (s : JournalIo) (r : JournalRec) (o : PageOutcome) : Decidable (DropsRec s r o) :=
  inferInstanceAs (Decidable (_ ∧ (_ ∨ _ ∧ _ ∧ _)))

/-- No append returns `-KV_EFULL`. -/
theorem append_rc_ne (s : JournalIo) (r : JournalRec) (o : PageOutcome) :
    (s.append r o).2 ≠ -kvEfull := by
  generalize hres : s.append r o = res
  have hrc : o.rc ≠ -kvEfull := by
    cases o with
    | done => decide
    | failed errno left =>
      simp only [PageOutcome.rc, kvEfull]
      omega
  cases append_cases hres with
  | writeFails => exact hrc
  | _ =>
    simp only
    decide

theorem append_dropped (s : JournalIo) (r : JournalRec) (o : PageOutcome) :
    s.jour.dropped < (s.append r o).1.jour.dropped ↔ DropsRec s r o := by
  generalize hres : s.append r o = res
  unfold DropsRec
  cases append_cases hres with
  | tooLong hlong =>
    simp only [lt_self_iff_false, false_iff]
    omega
  | full hfit hfull =>
    simp only [JournalIo.drop]
    omega
  | writeFails hfit hroom hpage ho =>
    simp only [written, JournalIo.writePage, lt_self_iff_false, false_iff]
    rintro ⟨_, h | ⟨_, h, _⟩⟩
    · omega
    · exact ho h
  | lastPage hfit hroom hpage ho hlast =>
    simp only [written, JournalIo.writePage, JournalIo.turnPage, JournalIo.drop]
    exact ⟨fun _ => ⟨hfit, .inr ⟨hpage, ho, hlast⟩⟩, fun _ => Nat.lt_succ_self _⟩
  | turned hfit hpage ho hnext =>
    simp only [written, JournalIo.writePage, JournalIo.turnPage, JournalIo.stage, journalStage,
      lt_self_iff_false, false_iff]
    omega
  | staged hroom hpage =>
    simp only [JournalIo.stage, journalStage, lt_self_iff_false, false_iff]
    omega

section Store

variable {s s' : JournalStore}

theorem leafJournal_eq (s : JournalStore) (d : Nat) (a : PublishArgs) (o : PageOutcome) :
    (s.leafJournal d a o).1 = s.setJour d ((s.jours d).append (journalPutRec a) o).1 := by
  have hne := append_rc_ne (s.jours d) (journalPutRec a) o
  unfold JournalStore.leafJournal
  simp only [hne, decide_false, Bool.or_false]
  rfl

/-- The publish is accepted and writes a record. -/
def PublishRec (s : JournalStore) (d : Nat) (r : PutReq) (page crc now : Nat) : Prop :=
  let found := resolveNode s.idx r.prefixId r.groupIdx r.path
  (leafPublish (found.1.tree.leafAt found.2) (JournalStore.reqArgs d r page crc now)).accepted = true

instance (s : JournalStore) (d : Nat) (r : PutReq) (page crc now : Nat) :
    Decidable (PublishRec s d r page crc now) :=
  inferInstanceAs (Decidable (_ = true))

/-- The record of a publish of writer `d`. -/
def reqRec (d : Nat) (r : PutReq) (page crc now : Nat) : JournalRec :=
  journalPutRec (JournalStore.reqArgs d r page crc now)

theorem publish_spec (s : JournalStore) (d : Nat) (r : PutReq) (page crc now : Nat)
    (o : PageOutcome) :
    let res := s.publish d r page crc now o
    res.1.nDevs = s.nDevs ∧ res.1.ckptWanted = s.ckptWanted ∧ res.1.gcCkpts = s.gcCkpts ∧
      if PublishRec s d r page crc now then
        res.1.jours = update s.jours d ((s.jours d).append (reqRec d r page crc now) o).1 ∧
          res.2 = if ((s.jours d).append (reqRec d r page crc now) o).2 = kvEok then
            some (s.jours d).nextNo else none
      else res.1.jours = s.jours ∧ res.2 = none := by
  simp only [JournalStore.publish, PublishRec]
  split
  · rw [leafJournal_eq]
    exact ⟨rfl, rfl, rfl, rfl, rfl⟩
  · exact ⟨rfl, rfl, rfl, rfl, rfl⟩

theorem jours_step {P : Nat → JournalIo → Prop} (hP : ∀ d j op, P d j → P d (j.step op))
    {l : JsLabel} (h : s.step l = some s') (hs : ∀ d, P d (s.jours d)) (d : Nat) :
    P d (s'.jours d) := by
  have hset : ∀ (d' : Nat) (j : JournalIo), P d' j → P d (update s.jours d' j d) := by
    intro d' j hj
    by_cases hd : d = d'
    · subst hd
      rw [update_self]
      exact hj
    · rw [update_of_ne hd]
      exact hs d
  cases l with
  | publish d' r page crc now o =>
    simp only [JournalStore.step, ite_none_right_eq_some, Option.some.injEq] at h
    obtain ⟨_, rfl⟩ := h
    have hspec := (publish_spec s d' r page crc now o).2.2.2
    split at hspec
    · rw [hspec.1]
      exact hset d' _ (hP _ _ (.append _ o) (hs d'))
    · rw [hspec.1]
      exact hs d
  | drop node o =>
    obtain ⟨lf, _, rfl⟩ := map_eq_some_iff.1 h
    exact hset _ _ (hP _ _ (.append _ o) (hs _))
  | trim d' regionIdx epoch o =>
    simp only [JournalStore.step, ite_none_right_eq_some, Option.some.injEq] at h
    obtain ⟨_, rfl⟩ := h
    exact hset d' _ (hP _ _ (.append _ o) (hs d'))
  | flush d' o =>
    simp only [JournalStore.step, ite_none_right_eq_some, Option.some.injEq] at h
    obtain ⟨_, rfl⟩ := h
    exact hset d' _ (hP _ _ (.flush o) (hs d'))
  | gc ok os =>
    cases h
    unfold JournalStore.gcIter JournalStore.checkpoint
    split
    · split
      · simp only
        split
        · exact hP _ _ (.reset (os d)) (hs d)
        · exact hs d
      · exact hs d
    · exact hs d

theorem ckptWanted_step {l : JsLabel} (h : s.step l = some s') (hs : s.ckptWanted = false) :
    s'.ckptWanted = false := by
  cases l with
  | publish d r page crc now o =>
    simp only [JournalStore.step, ite_none_right_eq_some, Option.some.injEq] at h
    obtain ⟨_, rfl⟩ := h
    exact (publish_spec s d r page crc now o).2.1.trans hs
  | drop node o =>
    obtain ⟨lf, _, rfl⟩ := map_eq_some_iff.1 h
    exact hs
  | trim d regionIdx epoch o | flush d o =>
    simp only [JournalStore.step, ite_none_right_eq_some, Option.some.injEq] at h
    obtain ⟨_, rfl⟩ := h
    exact hs
  | gc ok os =>
    cases h
    unfold JournalStore.gcIter
    rw [if_neg (by rw [hs]; decide)]
    exact hs

end Store

/-- A publish whose record is dropped for want of room. -/
def DropsRecord (s : JournalStore) : JsLabel → Prop
  | .publish d r page crc now o =>
    PublishRec s d r page crc now ∧ DropsRec (s.jours d) (reqRec d r page crc now) o
  | _ => False

instance (s : JournalStore) (l : JsLabel) : Decidable (DropsRecord s l) :=
  match l with
  | .publish _ _ _ _ _ _ => inferInstanceAs (Decidable (_ ∧ _))
  | .drop _ _ => .isFalse id
  | .trim _ _ _ _ => .isFalse id
  | .flush _ _ => .isFalse id
  | .gc _ _ => .isFalse id

/-- A publish whose record is dropped asks for a checkpoint, and the next iteration takes it. -/
def Signals (s : JournalStore) : JsLabel → Prop
  | .publish d r page crc now o =>
    let s' := (s.publish d r page crc now o).1
    (s.jours d).jour.dropped < (s'.jours d).jour.dropped →
      s'.ckptWanted = true ∧ ∀ ok os, (s'.gcIter ok os).gcCkpts = s'.gcCkpts + 1
  | _ => True

/-- A publish signals exactly if it drops no record. -/
theorem signals_iff {s : JournalStore} (hs : s.ckptWanted = false) (l : JsLabel) :
    Signals s l ↔ ¬ DropsRecord s l := by
  cases l with
  | publish d r page crc now o =>
    obtain ⟨_, hwanted, _, hspec⟩ := publish_spec s d r page crc now o
    have hunset : (s.publish d r page crc now o).1.ckptWanted ≠ true := by
      rw [hwanted, hs]
      decide
    have hdrop : (s.jours d).jour.dropped <
        ((s.publish d r page crc now o).1.jours d).jour.dropped ↔
          DropsRecord s (.publish d r page crc now o) := by
      unfold DropsRecord
      split at hspec
      · rename_i hrec
        rw [hspec.1, update_self, append_dropped]
        exact ⟨fun h => ⟨hrec, h⟩, fun h => h.2⟩
      · rename_i hrec
        rw [hspec.1]
        exact ⟨fun h => absurd h (lt_irrefl _), fun h => absurd h.1 hrec⟩
    rw [← hdrop]
    exact ⟨fun h hlt => hunset (h hlt).1, fun h hlt => absurd hlt h⟩
  | drop | trim | flush | gc => exact ⟨fun _ h => h, fun _ => trivial⟩

/-- Every publish of a run that drops its record asks for a checkpoint exactly if no publish of the
run drops one: while the cache runs nothing ever asks for one. -/
theorem overflow_signalled_iff {nDevs journalPage n : Nat} {idx : Index}
    {pages : Nat → Nat → List JournalRec} {ls : List JsLabel} {s : JournalStore} :
    RunOf JournalStore.step Signals (.start nDevs journalPage n idx pages) ls s ↔
      RunOf JournalStore.step (fun s l => ¬ DropsRecord s l)
        (.start nDevs journalPage n idx pages) ls s := by
  have hkeep : ∀ (s : JournalStore) (l : JsLabel) (s' : JournalStore), s.ckptWanted = false →
      s.step l = some s' → s'.ckptWanted = false := fun _ _ _ hs hst => ckptWanted_step hst hs
  constructor
  · intro hrun
    exact (hrun.strengthen (fun s => s.ckptWanted = false)
      (fun s l s' hs hsig hst => ⟨hkeep s l s' hs hst, (signals_iff hs l).1 hsig⟩) rfl).1
  · intro hrun
    exact (hrun.strengthen (fun s => s.ckptWanted = false)
      (fun s l s' hs hno hst => ⟨hkeep s l s' hs hst, (signals_iff hs l).2 hno⟩) rfl).1

def wideReq (ver : Nat) : PutReq where
  prefixId := 1
  groupIdx := 0
  path := [5]
  expireTs := 0
  ver := ver
  flags := Flags.empty
  stripeIdx := 0
  stripeCnt := 0
  stripeTotal := 0
  dataLen := 32640
  crc := 0
  slot := 0
  shape := ⟨0, List.range 256⟩
  dev := 0

/-- The publish of such a put. -/
def widePublish (ver : Nat) : JsLabel := .publish 0 (wideReq ver) (8 * ver) 0 0 .done

def onePageStore : JournalStore := .start 1 100 1 Index.empty fun _ _ => []

theorem widePublish_run : ∃ s,
    RunOf JournalStore.step (fun s l => ¬ DropsRecord s l) onePageStore
        [widePublish 1, widePublish 2, widePublish 3] s ∧
      (s.jours 0).jour.dropped = 0 ∧ DropsRecord s (widePublish 4) ∧
      ∃ s', s.step (widePublish 4) = some s' ∧ (s'.jours 0).jour.dropped = 1 ∧
        s'.ckptWanted = false ∧ (s'.gcIter true fun _ _ => .done).gcCkpts = 0 := by
  have hrun : (([widePublish 1, widePublish 2, widePublish 3].foldlM (fun s l =>
      if decide (¬ DropsRecord s l) then JournalStore.step s l else none) onePageStore).map
        fun s => decide ((s.jours 0).jour.dropped = 0 ∧ DropsRecord s (widePublish 4) ∧
          (s.step (widePublish 4)).map (fun s' => decide ((s'.jours 0).jour.dropped = 1 ∧
            s'.ckptWanted = false ∧ (s'.gcIter true fun _ _ => .done).gcCkpts = 0)) =
              some true)) = some true := by
    decide +kernel
  obtain ⟨s, hs, hfacts⟩ := map_eq_some_iff.1 hrun
  obtain ⟨hnone, hdrops, hnext⟩ := of_decide_eq_true hfacts
  obtain ⟨s', hs', hend⟩ := map_eq_some_iff.1 hnext
  exact ⟨s, RunOf.of_checked _ (fun _ _ h => of_decide_eq_true h) hs, hnone, hdrops, s', hs',
    of_decide_eq_true hend⟩

/-- Three publishes of 1100 bytes fit one page, and each of them signals what it drops. -/
theorem overflow_signalled_three : ∃ s,
    RunOf JournalStore.step Signals onePageStore [widePublish 1, widePublish 2, widePublish 3] s := by
  obtain ⟨s, hrun, _⟩ := widePublish_run
  exact ⟨s, overflow_signalled_iff.2 hrun⟩

/-- The fourth of four publishes is dropped and nothing asks for a checkpoint. The next iteration of
the GC thread writes none. -/
theorem overflow_not_signalled : ∃ s s',
    RunOf JournalStore.step (fun _ _ => True) onePageStore
        [widePublish 1, widePublish 2, widePublish 3] s ∧
      s.step (widePublish 4) = some s' ∧ (s.jours 0).jour.dropped = 0 ∧
      (s'.jours 0).jour.dropped = 1 ∧ s'.ckptWanted = false ∧
      (s'.gcIter true fun _ _ => .done).gcCkpts = 0 ∧ ¬ Signals s (widePublish 4) := by
  obtain ⟨s, hrun, hnone, hdrops, s', hs', hone, hwanted, hgc⟩ := widePublish_run
  have hunset : s.ckptWanted = false :=
    hrun.invariant (fun s => s.ckptWanted = false)
      (fun _ _ _ hs _ hst => ckptWanted_step hst hs) rfl
  exact ⟨s, s', hrun.mono fun _ _ _ => trivial, hs', hnone, hone, hwanted, hgc,
    fun hsig => (signals_iff hunset _).1 hsig hdrops⟩

end KvTier.Analysis
