import Mathlib.Tactic

/-!
# A register with versioned writes and unversioned clears

A write is ignored when the register holds a newer version; a clear empties the register whatever it
holds.
-/

namespace KvTier.Lib.VersionedRegister

open List

variable {V : Type} {ver : V → Nat}

/-- An operation on the register. -/
inductive Op (V : Type) where
  | write (v : V)
  | clear
deriving DecidableEq

/-- The register after an operation. -/
def apply (ver : V → Nat) : Option V → Op V → Option V
  | _, .clear => none
  | none, .write v => some v
  | some u, .write v => if ver v < ver u then some u else some v

/-- The register after a log. -/
def replay (ver : V → Nat) (s : Option V) (ops : List (Op V)) : Option V :=
  ops.foldl (apply ver) s

/-- No write of the log is ignored. -/
def Legal (ver : V → Nat) : Option V → List (Op V) → Prop
  | _, [] => True
  | _, .clear :: ops => Legal ver none ops
  | s, .write v :: ops => (∀ u, s = some u → ver u ≤ ver v) ∧ Legal ver (some v) ops

@[simp]
theorem replay_nil (s : Option V) : replay ver s [] = s := rfl

@[simp]
theorem replay_cons (s : Option V) (o : Op V) (ops : List (Op V)) :
    replay ver s (o :: ops) = replay ver (apply ver s o) ops := rfl

theorem replay_append (s : Option V) (ops ops' : List (Op V)) :
    replay ver s (ops ++ ops') = replay ver (replay ver s ops) ops' := by
  simp [replay]

@[simp]
theorem apply_clear (s : Option V) : apply ver s .clear = none := by
  cases s <;> rfl

theorem apply_write_of_le {s : Option V} {v : V} (h : ∀ u, s = some u → ver u ≤ ver v) :
    apply ver s (.write v) = some v := by
  cases s with
  | none => rfl
  | some u =>
    have := h u rfl
    simp only [apply]
    rw [if_neg (by omega)]

/-! ## Legal logs -/

theorem legal_append_one {s : Option V} {ops : List (Op V)} {o : Op V} :
    Legal ver s (ops ++ [o]) ↔ Legal ver s ops ∧
      ∀ v, o = .write v → ∀ u, replay ver s ops = some u → ver u ≤ ver v := by
  induction ops generalizing s with
  | nil =>
    cases o with
    | clear => simp [Legal]
    | write v => simp [Legal]
  | cons o' ops ih =>
    cases o' with
    | clear => simp [Legal, ih]
    | write v =>
      simp only [cons_append, Legal, ih]
      constructor
      · rintro ⟨h1, h2, h3⟩
        refine ⟨⟨h1, h2⟩, ?_⟩
        rw [replay_cons, apply_write_of_le h1]
        exact h3
      · rintro ⟨⟨h1, h2⟩, h3⟩
        rw [replay_cons, apply_write_of_le h1] at h3
        exact ⟨h1, h2, h3⟩

theorem replay_eq_of_clear {ops : List (Op V)} (h : Op.clear ∈ ops) (s s' : Option V) :
    replay ver s ops = replay ver s' ops := by
  induction ops generalizing s s' with
  | nil => simp at h
  | cons o ops ih =>
    rcases mem_cons.mp h with ho | ho
    · rw [← ho, replay_cons, replay_cons, apply_clear, apply_clear]
    · exact ih ho _ _

/-- Without a clear the version only grows. -/
theorem Legal.le_replay {u : V} {ops : List (Op V)} (h : Legal ver (some u) ops)
    (hc : Op.clear ∉ ops) :
    ∃ w, replay ver (some u) ops = some w ∧ ver u ≤ ver w ∧
      ∀ v, Op.write v ∈ ops → ver v ≤ ver w := by
  induction ops generalizing u with
  | nil => exact ⟨u, rfl, Nat.le_refl _, by simp⟩
  | cons o ops ih =>
    cases o with
    | clear => simp at hc
    | write v =>
      obtain ⟨hle, hl⟩ := h
      obtain ⟨w, hw, hvw, hall⟩ := ih hl (fun hm => hc (by simp [hm]))
      refine ⟨w, ?_, (hle u rfl).trans hvw, ?_⟩
      · rw [replay_cons, apply_write_of_le hle]
        exact hw
      intro v' hv'
      rcases mem_cons.mp hv' with he | hv'
      · cases he
        exact hvw
      · exact hall v' hv'

theorem replay_le {m : Nat} {s : Option V} {ops : List (Op V)}
    (hs : ∀ u, s = some u → ver u ≤ m) (hops : ∀ v, Op.write v ∈ ops → ver v ≤ m) (w : V)
    (hw : replay ver s ops = some w) : ver w ≤ m := by
  induction ops generalizing s with
  | nil => exact hs w hw
  | cons o ops ih =>
    refine ih ?_ (fun v hv => hops v (by simp [hv])) hw
    intro u hu
    cases o with
    | clear => simp at hu
    | write v =>
      have hv := hops v (by simp)
      cases s with
      | none =>
        simp only [apply, Option.some.injEq] at hu
        exact hu ▸ hv
      | some u0 =>
        simp only [apply] at hu
        split at hu
        · cases hu
          exact hs _ rfl
        · cases hu
          exact hv

theorem Legal.write_le {s : Option V} {ops : List (Op V)} (h : Legal ver s ops)
    (hc : Op.clear ∉ ops) {v : V} (hv : Op.write v ∈ ops) :
    ∃ w, replay ver s ops = some w ∧ ver v ≤ ver w := by
  cases ops with
  | nil => simp at hv
  | cons o ops =>
    cases o with
    | clear => simp at hc
    | write v0 =>
      obtain ⟨hle, hl⟩ := h
      obtain ⟨w, hw, h0, hall⟩ := hl.le_replay (fun hm => hc (by simp [hm]))
      refine ⟨w, ?_, ?_⟩
      · rw [replay_cons, apply_write_of_le hle]
        exact hw
      rcases mem_cons.mp hv with he | hv
      · cases he
        exact h0
      · exact hall v hv

/-- Replaying a legal log again changes nothing. -/
theorem replay_replay {s : Option V} {ops : List (Op V)} (h : Legal ver s ops) :
    replay ver (replay ver s ops) ops = replay ver s ops := by
  rcases eq_nil_or_concat ops with rfl | ⟨ops', o, rfl⟩
  · rfl
  rw [concat_eq_append] at h ⊢
  obtain ⟨hl, hlast⟩ := legal_append_one.mp h
  cases o with
  | clear => simp [replay_append]
  | write v =>
    have hv := hlast v rfl
    have hres : replay ver s (ops' ++ [.write v]) = some v := by
      rw [replay_append, replay_cons, replay_nil, apply_write_of_le hv]
    rw [hres, replay_append, replay_cons, replay_nil]
    -- what the earlier part makes of the result is no newer than the last write
    apply apply_write_of_le
    intro w hw
    by_cases hc : Op.clear ∈ ops'
    · rw [replay_eq_of_clear hc _ s] at hw
      exact hv w hw
    refine replay_le (s := some v) ?_ ?_ w hw
    · intro u hu
      cases hu
      exact Nat.le_refl _
    · intro v' hv'
      obtain ⟨w', hw', hle⟩ := hl.write_le hc hv'
      exact hle.trans (hv w' hw')

theorem replay_of_older {u : V} {ops : List (Op V)} (hne : ops ≠ [])
    (hops : ∀ v, Op.write v ∈ ops → ver u ≤ ver v) :
    replay ver (some u) ops = replay ver none ops := by
  cases ops with
  | nil => exact absurd rfl hne
  | cons o ops =>
    cases o with
    | clear => simp
    | write v =>
      rw [replay_cons, replay_cons, apply_write_of_le]
      · rfl
      · intro u' hu'
        cases hu'
        exact hops v (by simp)

theorem replay_clears {s : Option V} {ops : List (Op V)} (h : ∀ o ∈ ops, o = .clear) :
    replay ver s ops = if ops = [] then s else none := by
  cases ops with
  | nil => rfl
  | cons o ops =>
    have ho : o = .clear := h o (by simp)
    subst ho
    rw [if_neg (by simp), replay_eq_of_clear (mem_cons_self) s none]
    clear s
    induction ops with
    | nil => rfl
    | cons o ops ih =>
      have ho : o = .clear := h o (by simp)
      subst ho
      rw [replay_cons, apply_clear]
      exact ih (fun o' ho' => h o' (by simp at ho' ⊢; tauto))

theorem Legal.eq_nil_of_older {s : Option V} {ops : List (Op V)} (h : Legal ver s ops) {u : V}
    (hu : replay ver s ops = some u) (hops : ∀ v, Op.write v ∈ ops → ver u < ver v) :
    ops = [] := by
  rcases eq_nil_or_concat ops with rfl | ⟨ops', o, rfl⟩
  · rfl
  rw [concat_eq_append] at h hu hops
  obtain ⟨_, hlast⟩ := legal_append_one.mp h
  cases o with
  | clear => simp [replay_append] at hu
  | write v =>
    rw [replay_append, replay_cons, replay_nil, apply_write_of_le (hlast v rfl)] at hu
    cases hu
    exact absurd (hops u (by simp)) (Nat.lt_irrefl _)

end KvTier.Lib.VersionedRegister
