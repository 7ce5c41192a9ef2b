/-! Steps that hand a state on. -/

namespace Interlock

/-- Applies a step to each element in turn, handing the state on, and collects the results. -/
def mapThrough {α β σ : Type} (step : α → σ → β × σ) : List α → σ → List β × σ
  | [], s => ([], s)
  | a :: as, s =>
    let (b, s) := step a s
    let (bs, s) := mapThrough step as s
    (b :: bs, s)

@[simp] theorem length_mapThrough {α β σ : Type} (step : α → σ → β × σ) (as : List α) (s : σ) :
    (mapThrough step as s).1.length = as.length := by
  induction as generalizing s with
  | nil => rfl
  | cons a as ih => simp [mapThrough, ih]

theorem mapThrough_append {α β σ : Type} (step : α → σ → β × σ) (as bs : List α) (s : σ) :
    mapThrough step (as ++ bs) s =
      ((mapThrough step as s).1 ++ (mapThrough step bs (mapThrough step as s).2).1,
        (mapThrough step bs (mapThrough step as s).2).2) := by
  induction as generalizing s with
  | nil => rfl
  | cons a as ih => simp [mapThrough, ih]

/-- What every step of a run keeps, the run keeps. -/
theorem mapThrough_keeps {α β σ : Type} {f : α → σ → β × σ} {I : σ → Prop}
    (h : ∀ a s, I s → I (f a s).2) (as : List α) {s : σ} (hs : I s) : I (mapThrough f as s).2 := by
  induction as generalizing s with
  | nil => exact hs
  | cons a as ih => exact ih (h a s hs)

/-- What holds of a whole run. Every step moves the state along `R` and leaves a result of which
`P` holds in the new state; `P` survives later steps, so it holds of all results in the last
state. -/
theorem mapThrough_spec {α β σ : Type} {f : α → σ → β × σ} {R : σ → σ → Prop}
    {P : α → β → σ → Prop} (refl : ∀ s, R s s) (trans : ∀ {s t u}, R s t → R t u → R s u)
    (keep : ∀ {a b s t}, P a b s → R s t → P a b t) (as : List α) (start : σ)
    (hstep : ∀ a ∈ as, ∀ s, R start s → R s (f a s).2 ∧ P a (f a s).1 (f a s).2) :
    R start (mapThrough f as start).2 ∧
      ∀ (i : Nat) b, (mapThrough f as start).1[i]? = some b →
        ∃ a, as[i]? = some a ∧ P a b (mapThrough f as start).2 := by
  induction as generalizing start with
  | nil => exact ⟨refl start, fun i b h => by simp [mapThrough] at h⟩
  | cons a as ih =>
    obtain ⟨hfirst, hresult⟩ := hstep a List.mem_cons_self start (refl start)
    obtain ⟨hrest, hall⟩ := ih (f a start).2 fun c hc s hs =>
      hstep c (List.mem_cons_of_mem _ hc) s (trans hfirst hs)
    refine ⟨trans hfirst hrest, fun i b h => ?_⟩
    cases i with
    | zero =>
      obtain rfl : (f a start).1 = b := by simpa [mapThrough] using h
      exact ⟨a, rfl, keep hresult hrest⟩
    | succ i => exact hall i b (by simpa [mapThrough] using h)

end Interlock
