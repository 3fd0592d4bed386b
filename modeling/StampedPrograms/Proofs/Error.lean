import StampedPrograms.Error

/-!
Taking apart computations that succeeded, and comparing two computations that may fail.
-/

namespace StampedPrograms

variable {ε α β : Type}

theorem bind_eq_ok {x : Except ε α} {f : α → Except ε β} {b : β} :
    x >>= f = .ok b ↔ ∃ a, x = .ok a ∧ f a = .ok b := by
  cases x with
  | error e => simp [bind, Except.bind]
  | ok a => simp [bind, Except.bind]

/-- A check before the rest. -/
theorem check_bind_eq_ok {x : Except ε Unit} {y : Except ε β} {b : β} :
    (x >>= fun _ => y) = .ok b ↔ x = .ok () ∧ y = .ok b := by
  rw [bind_eq_ok]
  constructor
  · rintro ⟨⟨⟩, hx, hy⟩
    exact ⟨hx, hy⟩
  · rintro ⟨hx, hy⟩
    exact ⟨(), hx, hy⟩

theorem bind_eq_error {x : Except ε α} {f : α → Except ε β} {e : ε} :
    x >>= f = .error e ↔ x = .error e ∨ ∃ a, x = .ok a ∧ f a = .error e := by
  cases x with
  | error e => simp [bind, Except.bind]
  | ok a => simp [bind, Except.bind]

theorem ok_bind (a : α) (f : α → Except ε β) : ((.ok a : Except ε α) >>= f) = f a := rfl

theorem map_eq_ok {x : Except ε α} {f : α → β} {b : β} : x.map f = .ok b ↔ ∃ a, x = .ok a ∧ f a = b := by
  cases x with
  | error e => simp [Except.map]
  | ok a => simp [Except.map]

theorem map_eq_error {x : Except ε α} {f : α → β} {e : ε} : x.map f = .error e ↔ x = .error e := by
  cases x with
  | error e => simp [Except.map]
  | ok a => simp [Except.map]

theorem map_map {γ : Type} (x : Except ε α) (f : α → β) (g : β → γ) :
    (x.map f).map g = x.map fun a => g (f a) := by
  cases x <;> rfl

theorem toOption_eq_some {x : Except ε α} {a : α} : x.toOption = some a ↔ x = .ok a := by
  cases x with
  | error e => simp [Except.toOption]
  | ok b => simp [Except.toOption]

/-- Every result of a computation over a list is the result for one of its items. -/
theorem exists_of_mem_mapM {f : α → Except ε β} {items : List α} {results : List β}
    (h : items.mapM f = .ok results) {b : β} (hb : b ∈ results) : ∃ a ∈ items, f a = .ok b := by
  induction items generalizing results with
  | nil =>
      cases h
      cases hb
  | cons item items ih =>
      rw [List.mapM_cons, bind_eq_ok] at h
      obtain ⟨first, hfirst, h⟩ := h
      obtain ⟨rest, hrest, h⟩ := bind_eq_ok.mp h
      cases h
      rcases List.mem_cons.mp hb with rfl | hb
      · exact ⟨item, List.mem_cons_self .., hfirst⟩
      · obtain ⟨a, ha, hfa⟩ := ih hrest hb
        exact ⟨a, List.mem_cons_of_mem _ ha, hfa⟩

/-- Where every result agrees with its item, so do the lists. -/
theorem map_eq_of_mapM {γ : Type} {f : α → Except ε β} {g : β → γ} {h : α → γ}
    (hf : ∀ a b, f a = .ok b → g b = h a) {items : List α} {results : List β}
    (hresults : items.mapM f = .ok results) : results.map g = items.map h := by
  induction items generalizing results with
  | nil =>
      cases hresults
      rfl
  | cons item items ih =>
      rw [List.mapM_cons, bind_eq_ok] at hresults
      obtain ⟨first, hfirst, hresults⟩ := hresults
      obtain ⟨rest, hrest, hresults⟩ := bind_eq_ok.mp hresults
      cases hresults
      rw [List.map_cons, List.map_cons, hf item first hfirst, ih hrest]

theorem forM_eq_ok {f : α → Except ε Unit} {items : List α} :
    items.forM f = .ok () ↔ ∀ item ∈ items, f item = .ok () := by
  induction items with
  | nil => exact iff_of_true rfl fun _ h => absurd h List.not_mem_nil
  | cons item items ih =>
      show (f item >>= fun _ => items.forM f) = .ok () ↔ _
      rw [check_bind_eq_ok, ih, List.forall_mem_cons]

/-- The first item that fails is the one whose error is reported. -/
theorem forM_eq_error {f : α → Except ε Unit} {before : List α} {item : α} {e : ε}
    (hbefore : ∀ earlier ∈ before, f earlier = .ok ()) (hitem : f item = .error e) (after : List α) :
    (before ++ item :: after).forM f = .error e := by
  induction before with
  | nil =>
      show (f item >>= fun _ => after.forM f) = .error e
      rw [hitem]
      rfl
  | cons first before ih =>
      obtain ⟨hfirst, hrest⟩ := List.forall_mem_cons.mp hbefore
      show (f first >>= fun _ => (before ++ item :: after).forM f) = .error e
      rw [hfirst, ok_bind, ih hrest]

/-- Both computations fail with the same error, or both succeed with related results. -/
inductive Related (R : α → β → Prop) : Except ε α → Except ε β → Prop where
  | ok {a : α} {b : β} (same : R a b) : Related R (.ok a) (.ok b)
  | error (e : ε) : Related R (.error e) (.error e)

theorem Related.bind {γ δ : Type} {R : α → β → Prop} {S : γ → δ → Prop} {x : Except ε α}
    {y : Except ε β} {f : α → Except ε γ} {g : β → Except ε δ} (hxy : Related R x y)
    (hfg : ∀ a b, R a b → Related S (f a) (g b)) : Related S (x >>= f) (y >>= g) := by
  cases hxy with
  | ok same => exact hfg _ _ same
  | error e => exact .error e

theorem Related.map {γ δ : Type} {R : α → β → Prop} {S : γ → δ → Prop} {x : Except ε α}
    {y : Except ε β} {f : α → γ} {g : β → δ} (hxy : Related R x y) (hfg : ∀ a b, R a b → S (f a) (g b)) :
    Related S (x.map f) (y.map g) := by
  cases hxy with
  | ok same => exact .ok (hfg _ _ same)
  | error e => exact .error e

theorem Related.bind_same {γ δ : Type} {S : γ → δ → Prop} (x : Except ε α) {f : α → Except ε γ}
    {g : α → Except ε δ} (hfg : ∀ a, Related S (f a) (g a)) : Related S (x >>= f) (x >>= g) := by
  cases x with
  | error e => exact .error e
  | ok a => exact hfg a

end StampedPrograms
