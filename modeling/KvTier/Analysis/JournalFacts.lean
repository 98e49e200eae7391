import KvTier.Model.Journal

/-!
# Facts about one journal

`JourOk` is the journal between two operations: its pages are those of a log filled in order, and
the write offset is zero exactly when nothing is staged.
-/

namespace KvTier.Analysis

open KvTier.Lib KvTier.Model

/-- A journal between two operations. -/
structure JourOk (j : Journal) : Prop where
  tracks : j.log.Tracks j.journalPages
  off : j.curOff = 0 ↔ j.log.stage = []

theorem jrecTotal_pos (r : JournalRec) : 0 < jrecTotal r := by
  unfold jrecTotal
  omega

section Flush

variable {j : Journal}

theorem JourOk.read_initial (h : JourOk j) : journalRead j <+: j.recs := h.tracks.read_initial

@[simp]
theorem recs_journalFlush (j : Journal) : (journalFlush j).recs = j.recs := by
  unfold journalFlush Journal.recs
  split
  · rfl
  · simp

/-- A flush makes everything appended readable. -/
theorem read_journalFlush (h : JourOk j) : journalRead (journalFlush j) = j.recs := by
  unfold journalFlush
  split
  · rename_i h0
    -- nothing is staged, so the pages hold everything
    have hs : j.log.stage = [] := h.off.mp h0
    have hcur : j.log.pages j.log.curPage = [] := by
      have := h.tracks.cur
      rw [hs] at this
      exact List.prefix_nil.mp this
    unfold journalRead Journal.recs
    rw [h.tracks.read_eq, hcur]
    unfold PagedLog.appended
    rw [hs]
  · exact h.tracks.read_flush

theorem JourOk.flush (h : JourOk j) : JourOk (journalFlush j) := by
  unfold journalFlush
  split
  · exact h
  · exact ⟨h.tracks.flush, h.off⟩

@[simp]
theorem devId_journalFlush (j : Journal) : (journalFlush j).devId = j.devId := by
  unfold journalFlush
  split <;> rfl

@[simp]
theorem journalPages_journalFlush (j : Journal) :
    (journalFlush j).journalPages = j.journalPages := by
  unfold journalFlush
  split <;> rfl

@[simp]
theorem dropped_journalFlush (j : Journal) : (journalFlush j).dropped = j.dropped := by
  unfold journalFlush
  split <;> rfl

end Flush

section Append

variable {j : Journal}

theorem journalNextPage_eq (h : j.curOff ≠ 0) :
    journalNextPage j = { j with log := j.log.advance, curOff := 0 } := by
  unfold journalNextPage journalFlush
  rw [if_neg h]
  rfl

theorem JourOk.stage (h : JourOk j) (r : JournalRec) (hlt : j.log.curPage < j.journalPages) :
    JourOk (journalStage j r) where
  tracks := h.tracks.push _ hlt
  off := by
    have hpos := jrecTotal_pos r
    constructor
    · intro h0
      have : j.curOff + jrecTotal r = 0 := h0
      omega
    · intro hs
      have : j.log.stage ++ [{ r with devId := j.devId }] = [] := hs
      simp at this

@[simp]
theorem recs_journalStage (j : Journal) (r : JournalRec) :
    (journalStage j r).recs = j.recs ++ [{ r with devId := j.devId }] := by
  simp [journalStage, Journal.recs]

/-- An append adds its record or counts it as dropped. -/
structure AppendSpec (j : Journal) (r : JournalRec) (j' : Journal) : Prop where
  ok : JourOk j'
  devId : j'.devId = j.devId
  journalPages : j'.journalPages = j.journalPages
  read : journalRead j' = journalRead j ∨ journalRead j' = j.recs
  outcome : (j'.dropped = j.dropped ∧ j'.recs = j.recs ++ [{ r with devId := j.devId }]) ∨
    (j'.dropped = j.dropped + 1 ∧ j'.recs = j.recs)

theorem journalAppend_spec (h : JourOk j) {r : JournalRec} (hr : jrecTotal r ≤ pageSize) :
    AppendSpec j r (journalAppend j r).1 := by
  unfold journalAppend
  rw [if_neg (by omega)]
  split
  · -- the area is full already
    exact ⟨⟨h.tracks, h.off⟩, rfl, rfl, Or.inl rfl, Or.inr ⟨rfl, rfl⟩⟩
  rename_i hcap
  split
  · -- the page is full: write it and go on with the next one
    rename_i hfull
    have hoff : j.curOff ≠ 0 := by omega
    have hstage : j.log.stage ≠ [] := fun hs => hoff (h.off.mpr hs)
    have hadv := h.tracks.advance hstage (by omega)
    have hread := h.tracks.read_advance hstage (by omega)
    have hok : JourOk { j with log := j.log.advance, curOff := 0 } :=
      ⟨hadv, by simp [PagedLog.advance]⟩
    have hrecs : ({ j with log := j.log.advance, curOff := 0 } : Journal).recs = j.recs := by
      simp [Journal.recs]
    simp only [journalNextPage_eq hoff]
    split
    · exact ⟨⟨hok.tracks, hok.off⟩, rfl, rfl, Or.inr hread, Or.inr ⟨rfl, hrecs⟩⟩
    · rename_i hroom
      refine ⟨hok.stage r (by simpa using hroom), rfl, rfl, Or.inr hread, Or.inl ⟨rfl, ?_⟩⟩
      rw [recs_journalStage, hrecs]
  · exact ⟨h.stage r (by omega), rfl, rfl, Or.inl rfl, Or.inl ⟨rfl, recs_journalStage j r⟩⟩

theorem AppendSpec.dropped_le {j' : Journal} {r : JournalRec} (h : AppendSpec j r j') :
    j.dropped ≤ j'.dropped := by
  rcases h.outcome with ⟨hd, _⟩ | ⟨hd, _⟩ <;> omega

end Append

section Reset

variable {j : Journal}

/-- A reset has come to page `p`. -/
structure Wiping (j : Journal) (p : Nat) : Prop where
  low : ∀ i < p, j.log.pages i = []
  high : ∀ i, j.journalPages ≤ i → j.log.pages i = []

theorem JourOk.wiping (h : JourOk j) : Wiping j 0 where
  low i hi := absurd hi (Nat.not_lt_zero i)
  high i hi := by
    rcases Nat.lt_or_ge j.log.curPage i with hlt | hge
    · exact h.tracks.fresh i hlt
    have he : j.log.curPage = j.journalPages := by
      have := h.tracks.bound
      omega
    have hi' : i = j.log.curPage := by
      have := h.tracks.bound
      omega
    have hcur := h.tracks.cur
    rw [h.tracks.last he] at hcur
    rw [hi']
    exact List.prefix_nil.mp hcur

theorem Wiping.resetPage {p : Nat} (h : Wiping j p) : Wiping (journalResetPage j p) (p + 1) where
  low i hi := by
    simp only [journalResetPage, PagedLog.wipe]
    by_cases hip : i = p
    · subst hip; simp
    · rw [Function.update_of_ne hip]
      exact h.low i (by omega)
  high i hi := by
    simp only [journalResetPage, PagedLog.wipe]
    by_cases hip : i = p
    · subst hip; simp
    · rw [Function.update_of_ne hip]
      exact h.high i hi

theorem Wiping.read_eq_nil {p : Nat} (h : Wiping j p) (hp : 0 < p) : journalRead j = [] :=
  PagedLog.read_of_first_empty _ _ (h.low 0 hp)

theorem Wiping.resetDone {p : Nat} (h : Wiping j p) (hp : j.journalPages ≤ p) :
    JourOk (journalResetDone j) where
  tracks := by
    apply PagedLog.tracks_of_empty
    · intro i
      rcases Nat.lt_or_ge i p with hi | hi
      · exact h.low i hi
      · exact h.high i (by omega)
    · rfl
    · rfl
  off := by simp [journalResetDone, PagedLog.rewind]

theorem recs_journalResetDone (j : Journal) : (journalResetDone j).recs = [] := by
  simp [journalResetDone, Journal.recs, PagedLog.appended, PagedLog.rewind]

end Reset

end KvTier.Analysis
