import Mathlib.Data.List.Basic
import Mathlib.Logic.Function.Basic
import Mathlib.Tactic

/-!
# A log written page by page

A log collects records in a staged page; the staged page is written in place each time it is
flushed, and the log moves on to the next page when it is full.
-/

namespace KvTier.Lib

open List

/-- Pages of records and a staged page. -/
structure PagedLog (α : Type) where
  pages : Nat → List α
  curPage : Nat
  stage : List α

namespace PagedLog

variable {α : Type}

/-- Write the staged page in place. -/
def flush (g : PagedLog α) : PagedLog α :=
  { g with pages := Function.update g.pages g.curPage g.stage }

/-- Write the staged page and start the next one. -/
def advance (g : PagedLog α) : PagedLog α :=
  { g.flush with curPage := g.curPage + 1, stage := [] }

/-- Stage one more record. -/
def push (g : PagedLog α) (x : α) : PagedLog α := { g with stage := g.stage ++ [x] }

/-- Clear one page. -/
def wipe (g : PagedLog α) (p : Nat) : PagedLog α :=
  { g with pages := Function.update g.pages p [] }

/-- Restart at the first page with nothing staged. -/
def rewind (g : PagedLog α) : PagedLog α := { g with curPage := 0, stage := [] }

/-- Everything appended since the log was last empty. -/
def appended (g : PagedLog α) : List α :=
  (List.range g.curPage).flatMap g.pages ++ g.stage

def readFrom (pages : Nat → List α) : Nat → Nat → List α
  | _, 0 => []
  | p, n + 1 => match pages p with
    | [] => []
    | r :: rs => (r :: rs) ++ readFrom pages (p + 1) n

/-- What a reader finds in the log's area of `n` pages. -/
def read (n : Nat) (g : PagedLog α) : List α := readFrom g.pages 0 n

/-- Pages are filled in order, and the last one is a part of the stage. -/
structure Tracks (n : Nat) (g : PagedLog α) : Prop where
  full : ∀ p < g.curPage, g.pages p ≠ []
  cur : g.pages g.curPage <+: g.stage
  fresh : ∀ p, g.curPage < p → g.pages p = []
  bound : g.curPage ≤ n
  last : g.curPage = n → g.stage = []

/-! ## Reading -/

theorem readFrom_of_empty (pages : Nat → List α) (p n : Nat) (h : pages p = []) :
    readFrom pages p n = [] := by
  cases n with
  | zero => rfl
  | succ n => simp [readFrom, h]

theorem readFrom_eq (pages : Nat → List α) (k p n : Nat)
    (hfull : ∀ i < k, pages (p + i) ≠ []) (hfresh : ∀ i, k < i → pages (p + i) = [])
    (hk : k < n) :
    readFrom pages p n = (List.range k).flatMap (fun i => pages (p + i)) ++ pages (p + k) := by
  induction k generalizing p n with
  | zero =>
    obtain ⟨m, rfl⟩ := Nat.exists_eq_succ_of_ne_zero (by omega : n ≠ 0)
    have hnext : readFrom pages (p + 1) m = [] :=
      readFrom_of_empty _ _ _ (hfresh 1 (by omega))
    cases hp : pages p with
    | nil => simp [readFrom, hp]
    | cons r rs => simp [readFrom, hp, hnext]
  | succ k ih =>
    obtain ⟨m, rfl⟩ := Nat.exists_eq_succ_of_ne_zero (by omega : n ≠ 0)
    have hp : pages p ≠ [] := by simpa using hfull 0 (by omega)
    have htail := ih (p + 1) m
      (fun i hi => by
        have := hfull (i + 1) (by omega)
        rwa [show p + (i + 1) = p + 1 + i by omega] at this)
      (fun i hi => by
        have := hfresh (i + 1) (by omega)
        rwa [show p + (i + 1) = p + 1 + i by omega] at this)
      (by omega)
    have hread : readFrom pages p (m + 1) = pages p ++ readFrom pages (p + 1) m := by
      cases hpp : pages p with
      | nil => exact absurd hpp hp
      | cons r rs => simp [readFrom, hpp]
    rw [Nat.succ_eq_add_one, hread, htail, range_succ_eq_map]
    simp only [flatMap_cons, flatMap_map, Nat.add_zero, List.append_assoc]
    have e : ∀ i, p + 1 + i = p + (i + 1) := fun i => by omega
    simp only [e, Nat.succ_eq_add_one]

/-- A reader comes to the pages written so far. -/
theorem Tracks.read_eq {n : Nat} {g : PagedLog α} (h : g.Tracks n) :
    g.read n = (List.range g.curPage).flatMap g.pages ++ g.pages g.curPage := by
  rcases Nat.lt_or_ge g.curPage n with hlt | hge
  · have := readFrom_eq g.pages g.curPage 0 n (by simpa using h.full) (by simpa using h.fresh)
      hlt
    simpa [read] using this
  have hn : g.curPage = n := le_antisymm h.bound hge
  have hcur : g.pages g.curPage = [] := by
    have := h.cur
    rw [h.last hn] at this
    exact prefix_nil.mp this
  rcases Nat.eq_zero_or_pos n with h0 | hpos
  · subst h0
    rw [hcur, hn]
    rfl
  -- the last page of the area is complete: read it as the page after the others
  have hk : n - 1 < n := by omega
  have := readFrom_eq g.pages (n - 1) 0 n
    (fun i hi => by simpa using h.full i (by omega))
    (fun i hi => by
      rcases Nat.lt_or_ge g.curPage i with hi' | hi'
      · simpa using h.fresh i hi'
      · have : i = g.curPage := by omega
        simpa [this] using hcur)
    hk
  have hr : (List.range n).flatMap g.pages =
      (List.range (n - 1)).flatMap g.pages ++ g.pages (n - 1) := by
    have hn1 : n = (n - 1) + 1 := by omega
    conv_lhs => rw [hn1, range_succ]
    simp
  simp only [Nat.zero_add] at this
  rw [read, this, hn, hr]
  simp [hn ▸ hcur]

theorem Tracks.read_initial {n : Nat} {g : PagedLog α} (h : g.Tracks n) :
    g.read n <+: g.appended := by
  rw [h.read_eq]
  exact prefix_append_right_inj _ |>.mpr h.cur

theorem read_of_first_empty (n : Nat) (g : PagedLog α) (h : g.pages 0 = []) : g.read n = [] :=
  readFrom_of_empty _ _ _ h

/-! ## Operations -/

@[simp]
theorem appended_flush (g : PagedLog α) : g.flush.appended = g.appended := by
  unfold appended flush
  simp only [append_cancel_right_eq]
  apply flatMap_congr
  intro p hp
  have : p ≠ g.curPage := by
    have := mem_range.mp hp
    omega
  simp [Function.update_of_ne this]

@[simp]
theorem appended_push (g : PagedLog α) (x : α) : (g.push x).appended = g.appended ++ [x] := by
  simp [appended, push]

@[simp]
theorem appended_advance (g : PagedLog α) : g.advance.appended = g.appended := by
  have h := appended_flush g
  unfold appended advance flush at *
  simp only [range_succ, flatMap_append, flatMap_singleton, List.append_nil]
  simpa [Function.update_self] using h

theorem Tracks.flush {n : Nat} {g : PagedLog α} (h : g.Tracks n) : g.flush.Tracks n where
  full p hp := by
    have hne : p ≠ g.curPage := Nat.ne_of_lt hp
    simpa [PagedLog.flush, Function.update_of_ne hne] using h.full p hp
  cur := by simp [PagedLog.flush]
  fresh p hp := by
    have hne : p ≠ g.curPage := Nat.ne_of_gt hp
    simpa [PagedLog.flush, Function.update_of_ne hne] using h.fresh p hp
  bound := h.bound
  last := h.last

/-- A flush makes everything appended readable. -/
theorem Tracks.read_flush {n : Nat} {g : PagedLog α} (h : g.Tracks n) :
    g.flush.read n = g.appended := by
  rw [h.flush.read_eq, ← appended_flush g]
  simp [PagedLog.flush, appended]

theorem Tracks.push {n : Nat} {g : PagedLog α} (h : g.Tracks n) (x : α)
    (hlt : g.curPage < n) : (g.push x).Tracks n where
  full := h.full
  cur := h.cur.trans (prefix_append _ _)
  fresh := h.fresh
  bound := h.bound
  last hn := absurd hn (Nat.ne_of_lt hlt)

theorem Tracks.advance {n : Nat} {g : PagedLog α} (h : g.Tracks n) (hs : g.stage ≠ [])
    (hlt : g.curPage < n) : g.advance.Tracks n where
  full p hp := by
    simp only [PagedLog.advance, PagedLog.flush] at hp ⊢
    by_cases hne : p = g.curPage
    · subst hne; simpa using hs
    · rw [Function.update_of_ne hne]
      exact h.full p (by omega)
  cur := by
    have hne : g.curPage + 1 ≠ g.curPage := by omega
    simp only [PagedLog.advance, PagedLog.flush, Function.update_of_ne hne]
    rw [h.fresh _ (by omega)]
  fresh p hp := by
    simp only [PagedLog.advance, PagedLog.flush] at hp ⊢
    rw [Function.update_of_ne (by omega)]
    exact h.fresh p (by omega)
  bound := hlt
  last _ := rfl

theorem Tracks.read_advance {n : Nat} {g : PagedLog α} (h : g.Tracks n) (hs : g.stage ≠ [])
    (hlt : g.curPage < n) : g.advance.read n = g.appended := by
  have ht := h.advance hs hlt
  rw [ht.read_eq, ← appended_advance g]
  have hcur : g.advance.pages g.advance.curPage = [] := prefix_nil.mp ht.cur
  rw [hcur]
  rfl

theorem tracks_of_empty (n : Nat) (g : PagedLog α) (hp : ∀ p, g.pages p = [])
    (hc : g.curPage = 0) (hs : g.stage = []) : g.Tracks n where
  full p h := by omega
  cur := by simp [hp]
  fresh p _ := hp p
  bound := by omega
  last _ := hs

/-! ## Logs of other records -/

section Map

variable {β : Type} (f : α → β)

/-- The log with its records seen through a function. -/
def map (g : PagedLog α) : PagedLog β := ⟨fun p => (g.pages p).map f, g.curPage, g.stage.map f⟩

theorem map_flush (g : PagedLog α) : g.flush.map f = (g.map f).flush := by
  unfold map flush
  congr 1
  funext p
  simp only [Function.update_apply]
  split <;> rfl

theorem map_push (g : PagedLog α) (x : α) : (g.push x).map f = (g.map f).push (f x) := by
  simp [map, push]

theorem map_advance (g : PagedLog α) : g.advance.map f = (g.map f).advance := by
  have h := congrArg PagedLog.pages (map_flush f g)
  unfold advance
  rw [← map_flush]
  rfl

theorem readFrom_map (pages : Nat → List α) (p n : Nat) :
    readFrom (fun q => (pages q).map f) p n = (readFrom pages p n).map f := by
  induction n generalizing p with
  | zero => rfl
  | succ n ih =>
    simp only [readFrom]
    cases hp : pages p with
    | nil => rfl
    | cons x xs => simp [ih]

theorem read_map (n : Nat) (g : PagedLog α) : (g.map f).read n = (g.read n).map f :=
  readFrom_map f g.pages 0 n

end Map

end PagedLog

end KvTier.Lib
