import Mathlib.Tactic

/-!
# Runs of a partial step function

`RunOf step ok s ls s'` is a run of `step` from `s` to `s'` through the labels `ls`, each step of
which satisfies `ok` in the state it is taken from.
-/

namespace KvTier.Lib

variable {σ ℓ : Type} {step : σ → ℓ → Option σ} {ok : σ → ℓ → Prop}

/-- A run, with a condition on each step. -/
inductive RunOf (step : σ → ℓ → Option σ) (ok : σ → ℓ → Prop) : σ → List ℓ → σ → Prop
  | nil (s : σ) : RunOf step ok s [] s
  | cons {s s' s'' : σ} {l : ℓ} {ls : List ℓ} (hok : ok s l) (hstep : step s l = some s')
      (hrest : RunOf step ok s' ls s'') : RunOf step ok s (l :: ls) s''

/-- A field that each step folds is folded by the whole run. -/
theorem foldlM_project {τ : Type} {g : σ → τ} {k : τ → ℓ → τ}
    (hstep : ∀ {s s' : σ} {l : ℓ}, step s l = some s' → g s' = k (g s) l) {ls : List ℓ}
    {s s' : σ} (h : ls.foldlM step s = some s') : g s' = ls.foldl k (g s) := by
  induction ls generalizing s with
  | nil =>
    cases h
    rfl
  | cons l ls ih =>
    rw [List.foldlM_cons] at h
    obtain ⟨s1, h1, h2⟩ := Option.bind_eq_some_iff.1 h
    rw [ih h2, hstep h1, List.foldl_cons]

namespace RunOf

/-- What every step preserves holds at the end of a run. -/
theorem invariant (P : σ → Prop)
    (hstep : ∀ s l s', P s → ok s l → step s l = some s' → P s') {s s' : σ} {ls : List ℓ}
    (h : RunOf step ok s ls s') (hs : P s) : P s' := by
  induction h with
  | nil s => exact hs
  | cons hok hst _ ih => exact ih (hstep _ _ _ hs hok hst)

/-- An invariant that may speak of the labels so far. -/
theorem history (P : List ℓ → σ → Prop)
    (hstep : ∀ past s l s', P past s → ok s l → step s l = some s' → P (past ++ [l]) s')
    {s s' : σ} {ls : List ℓ} (h : RunOf step ok s ls s') {past : List ℓ} (hs : P past s) :
    P (past ++ ls) s' := by
  induction h generalizing past with
  | nil s => simpa using hs
  | cons hok hst _ ih => simpa using ih (hstep _ _ _ _ hs hok hst)

theorem of_foldlM {s s' : σ} {ls : List ℓ} (h : ls.foldlM step s = some s')
    (hok : ∀ l ∈ ls, ∀ s, ok s l) : RunOf step ok s ls s' := by
  induction ls generalizing s with
  | nil =>
    simp only [List.foldlM_nil, Option.pure_def, Option.some.injEq] at h
    subst h
    exact .nil s
  | cons l ls ih =>
    simp only [List.foldlM_cons, Option.bind_eq_bind, Option.bind_eq_some_iff] at h
    obtain ⟨s1, h1, h2⟩ := h
    exact .cons (hok l (by simp) s) h1 (ih h2 fun l' hl' => hok l' (by simp [hl']))

/-- Runs compose. -/
theorem append {s s' s'' : σ} {ls ls' : List ℓ} (h : RunOf step ok s ls s')
    (h' : RunOf step ok s' ls' s'') : RunOf step ok s (ls ++ ls') s'' := by
  induction h with
  | nil s => exact h'
  | cons hok hst _ ih => exact .cons hok hst (ih h')

theorem mono {ok' : σ → ℓ → Prop} (hw : ∀ s l, ok s l → ok' s l) {s s' : σ} {ls : List ℓ}
    (h : RunOf step ok s ls s') : RunOf step ok' s ls s' := by
  induction h with
  | nil s => exact .nil s
  | cons hok hst _ ih => exact .cons (hw _ _ hok) hst ih

/-- A run that keeps an invariant meets what follows from it at each step. -/
theorem strengthen (P : σ → Prop) {ok' : σ → ℓ → Prop}
    (hstep : ∀ s l s', P s → ok s l → step s l = some s' → P s' ∧ ok' s l) {s s' : σ}
    {ls : List ℓ} (h : RunOf step ok s ls s') (hs : P s) : RunOf step ok' s ls s' ∧ P s' := by
  induction h with
  | nil s => exact ⟨.nil s, hs⟩
  | cons hok hst _ ih =>
    obtain ⟨hs1, hok'⟩ := hstep _ _ _ hs hok hst
    obtain ⟨hrun, hend⟩ := ih hs1
    exact ⟨.cons hok' hst hrun, hend⟩

/-- A property every step keeps exactly under `C` holds along a run exactly if `C` does. -/
theorem always_iff {P I : σ → Prop} {C : σ → ℓ → Prop}
    (hinv : ∀ s l s', I s → ok s l → step s l = some s' → I s')
    (hiff : ∀ s l s', I s → ok s l → P s → step s l = some s' → (P s' ↔ C s l)) {s s' : σ}
    {ls : List ℓ} (h : RunOf step ok s ls s') (hI : I s) (hP : P s) :
    (RunOf step (fun s _ => P s) s ls s' ∧ P s') ↔ RunOf step C s ls s' := by
  induction h with
  | nil s => exact ⟨fun _ => .nil s, fun _ => ⟨.nil s, hP⟩⟩
  | @cons s s1 s' l ls hok hstep hrest ih =>
    have hone := hiff s l s1 hI hok hP hstep
    have hI1 := hinv s l s1 hI hok hstep
    constructor
    · rintro ⟨hall, hend⟩
      cases hall with
      | cons _ hstep' hall =>
        obtain rfl := Option.some.inj (hstep.symm.trans hstep')
        have hP1 : P s1 := by
          cases hall with
          | nil => exact hend
          | cons hP1 _ _ => exact hP1
        exact .cons (hone.1 hP1) hstep ((ih hI1 hP1).1 ⟨hall, hend⟩)
    intro hall
    cases hall with
    | cons hC hstep' hall =>
      obtain rfl := Option.some.inj (hstep.symm.trans hstep')
      obtain ⟨hrest', hend⟩ := (ih hI1 (hone.2 hC)).2 hall
      exact ⟨.cons hP hstep hrest', hend⟩

/-- A fold that checks each step is a run. -/
theorem of_checked (check : σ → ℓ → Bool) (hcheck : ∀ s l, check s l = true → ok s l)
    {s s' : σ} {ls : List ℓ}
    (h : ls.foldlM (fun s l => if check s l then step s l else none) s = some s') :
    RunOf step ok s ls s' := by
  induction ls generalizing s with
  | nil =>
    cases h
    exact .nil _
  | cons l ls ih =>
    obtain ⟨s1, hs1, hrest⟩ := Option.bind_eq_some_iff.1 h
    have hs1 : (if check s l then step s l else none) = some s1 := hs1
    split at hs1
    · rename_i hok
      exact .cons (hcheck s l hok) hs1 (ih hrest)
    · cases hs1

end RunOf

/-- A label with `A`, and `B` from it on. -/
def Since (A B : ℓ → Prop) (ls : List ℓ) : Prop :=
  ∃ pre l post, ls = pre ++ l :: post ∧ A l ∧ ∀ x ∈ l :: post, B x

theorem Since.now {A B : ℓ → Prop} (ls : List ℓ) {l : ℓ} (ha : A l) (hb : B l) :
    Since A B (ls ++ [l]) :=
  ⟨ls, l, [], rfl, ha, by simpa using hb⟩

theorem Since.more {A B : ℓ → Prop} {ls : List ℓ} (h : Since A B ls) {l : ℓ} (hb : B l) :
    Since A B (ls ++ [l]) := by
  obtain ⟨pre, u, post, rfl, ha, hall⟩ := h
  refine ⟨pre, u, post ++ [l], by simp, ha, ?_⟩
  intro x hx
  rw [← List.cons_append, List.mem_append, List.mem_singleton] at hx
  rcases hx with hx | rfl
  · exact hall x hx
  · exact hb

end KvTier.Lib
