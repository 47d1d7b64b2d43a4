/-!
What a computation ensures.

Listing sentences may fail and does nothing else.  Counting, sampling and the mixture of both
are computations that change a state as well, and a failed one keeps the state it had
reached.  `Ensures I m Q` is the one thing said about them: from a state in which the
invariant `I` holds, `m` reaches such a state again, failed or not, and what it returns, if
anything, satisfies `Q`.

For sampling the state is the random stream.  With the trivial invariant, `Ensures` then
says something about every result that any stream at all can lead to.
-/

namespace Phrasebook

variable {ε σ α β : Type}

/-! ### Without a state -/

theorem bind_eq_ok {x : Except ε α} {f : α → Except ε β} {b : β} :
    (x >>= f) = .ok b ↔ ∃ a, x = .ok a ∧ f a = .ok b := by
  cases x with
  | error e => exact ⟨fun h => by injection h, fun ⟨a, h, _⟩ => by injection h⟩
  | ok a =>
      constructor
      · exact fun h => ⟨a, rfl, h⟩
      · rintro ⟨a', ha, h⟩
        obtain rfl : a = a' := by injection ha
        exact h

theorem map_eq_ok {x : Except ε α} {f : α → β} {b : β} :
    f <$> x = .ok b ↔ ∃ a, x = .ok a ∧ f a = b := by
  cases x with
  | error e => exact ⟨fun h => by injection h, fun ⟨a, h, _⟩ => by injection h⟩
  | ok a =>
      constructor
      · exact fun h => ⟨a, rfl, by injection h⟩
      · rintro ⟨a', ha, rfl⟩
        obtain rfl : a = a' := by injection ha
        rfl

/-- Two results that are the same up to `f` fail alike or succeed alike. -/
theorem map_eq_map_cases {x y : Except ε α} {f : α → β} (h : f <$> x = f <$> y) :
    (∃ e, x = .error e ∧ y = .error e) ∨ ∃ a b, x = .ok a ∧ y = .ok b ∧ f a = f b := by
  cases x with
  | error e =>
      cases y with
      | error e' =>
          obtain rfl : e = e' := by injection h
          exact Or.inl ⟨e, rfl, rfl⟩
      | ok b => injection h
  | ok a =>
      cases y with
      | error e => injection h
      | ok b => exact Or.inr ⟨a, b, rfl, rfl, by injection h⟩

theorem ok_of_toOption {x : Except ε α} {a : α} (h : x.toOption = some a) :
    x = .ok a := by
  cases x with
  | error e => simp [Except.toOption] at h
  | ok b => exact congrArg Except.ok (by simpa [Except.toOption] using h)

/-- All of a list passes a check if each member does. -/
theorem forM_eq_ok {xs : List α} {f : α → Except ε PUnit} :
    xs.forM f = .ok () ↔ ∀ x ∈ xs, f x = .ok () := by
  induction xs with
  | nil => simp [List.forM, pure, Except.pure]
  | cons x rest ih =>
      rw [List.forall_mem_cons, ← ih]
      constructor
      · intro h
        obtain ⟨_, hx, hrest⟩ := bind_eq_ok.mp h
        exact ⟨hx, hrest⟩
      · rintro ⟨hx, hrest⟩
        exact bind_eq_ok.mpr ⟨(), hx, hrest⟩

/-- Steps one after the other fail only if one of them does. -/
theorem exists_of_foldlM_error {f : β → α → Except ε β} {e : ε} :
    ∀ (as : List α) (b : β), as.foldlM f b = .error e → ∃ a ∈ as, ∃ b', f b' a = .error e
  | [], b, h => by injection h
  | a :: as, b, h => by
      rw [List.foldlM_cons] at h
      cases hfirst : f b a with
      | error e' =>
          rw [hfirst] at h
          obtain rfl : e' = e := by injection h
          exact ⟨a, by simp, b, hfirst⟩
      | ok b' =>
          rw [hfirst] at h
          obtain ⟨a', ha', hlater⟩ := exists_of_foldlM_error as b' h
          exact ⟨a', by simp [ha'], hlater⟩

theorem exists_foldlM {f : β → α → Except ε β} {as : List α}
    (h : ∀ a ∈ as, ∀ b, ∃ b', f b a = .ok b') (b : β) : ∃ b', as.foldlM f b = .ok b' := by
  cases hfold : as.foldlM f b with
  | ok b' => exact ⟨b', rfl⟩
  | error e =>
      obtain ⟨a, ha, b', herror⟩ := exists_of_foldlM_error as b hfold
      obtain ⟨b'', hok⟩ := h a ha b'
      rw [hok] at herror
      injection herror

/-! ### With a state -/

/-- Keeps the invariant in any case, and returns only what satisfies `Q`. -/
def Ensures (I : σ → Prop) (m : ExceptT ε (StateM σ) α) (Q : α → Prop) : Prop :=
  ∀ s, I s → I (m.run s).2 ∧ ∀ a, (m.run s).1 = .ok a → Q a

namespace Ensures

variable {I : σ → Prop} {Q R : α → Prop}

theorem mono {m : ExceptT ε (StateM σ) α} (h : Ensures I m Q) (hQ : ∀ a, Q a → R a) :
    Ensures I m R := by
  intro s hs
  obtain ⟨hI, hm⟩ := h s hs
  exact ⟨hI, fun a ha => hQ a (hm a ha)⟩

/-- Without an invariant, anything ensures that something is returned, if anything. -/
theorem any (m : ExceptT ε (StateM σ) α) : Ensures (fun _ => True) m fun _ => True :=
  fun _ _ => ⟨trivial, fun _ _ => trivial⟩

theorem and {m : ExceptT ε (StateM σ) α} (hQ : Ensures I m Q) (hR : Ensures I m R) :
    Ensures I m fun a => Q a ∧ R a := by
  intro s hs
  obtain ⟨hI, hQ⟩ := hQ s hs
  exact ⟨hI, fun a ha => ⟨hQ a ha, (hR s hs).2 a ha⟩⟩

theorem pure {a : α} (h : Q a) : Ensures I (Pure.pure a : ExceptT ε (StateM σ) α) Q := by
  intro s hs
  refine ⟨hs, fun b hb => ?_⟩
  obtain rfl : a = b := by injection hb
  exact h

theorem throw (e : ε) : Ensures I (MonadExcept.throw e : ExceptT ε (StateM σ) α) Q := by
  intro s hs
  refine ⟨hs, fun b hb => ?_⟩
  injection hb

theorem run_bind (m : ExceptT ε (StateM σ) α) (f : α → ExceptT ε (StateM σ) β) (s : σ) :
    (m >>= f).run s =
      match m.run s with
      | (.ok a, s') => (f a).run s'
      | (.error e, s') => (.error e, s') := by
  rw [ExceptT.run_bind]
  simp only [Bind.bind, StateT.bind]
  rcases m.run s with ⟨_ | _, s'⟩ <;> rfl

theorem bind {m : ExceptT ε (StateM σ) α} {f : α → ExceptT ε (StateM σ) β} {S : β → Prop}
    (hm : Ensures I m Q) (hf : ∀ a, Q a → Ensures I (f a) S) : Ensures I (m >>= f) S := by
  intro s hs
  obtain ⟨hI, hQ⟩ := hm s hs
  rw [run_bind]
  rcases hr : m.run s with ⟨e | a, s'⟩
  · rw [hr] at hI
    exact ⟨hI, fun b hb => by injection hb⟩
  · rw [hr] at hI hQ
    exact hf a (hQ a rfl) s' hI

theorem map {m : ExceptT ε (StateM σ) α} {f : α → β} {S : β → Prop}
    (hm : Ensures I m fun a => S (f a)) : Ensures I (f <$> m) S := by
  rw [map_eq_pure_bind]
  exact bind hm fun a ha => pure ha

/-- What was computed without the state, or failed without it. -/
theorem liftExcept {x : Except ε α} (h : ∀ a, x = .ok a → Q a) :
    Ensures I (liftM x : ExceptT ε (StateM σ) α) Q := by
  intro s hs
  cases x with
  | error e => exact ⟨hs, fun a ha => by injection ha⟩
  | ok a =>
      refine ⟨hs, fun b hb => ?_⟩
      obtain rfl : a = b := by injection hb
      exact h a rfl

/-- What cannot fail. -/
theorem liftState {x : StateM σ α} (h : ∀ s, I s → I (x s).2 ∧ Q (x s).1) :
    Ensures I (liftM x : ExceptT ε (StateM σ) α) Q := by
  intro s hs
  obtain ⟨hI, hQ⟩ := h s hs
  refine ⟨hI, fun a ha => ?_⟩
  obtain rfl : (x s).1 = a := by injection ha
  exact hQ

theorem get : Ensures I (MonadState.get : ExceptT ε (StateM σ) σ) I := by
  intro s hs
  refine ⟨hs, fun a ha => ?_⟩
  obtain rfl : s = a := by injection ha
  exact hs

theorem modify {f : σ → σ} (h : ∀ s, I s → I (f s)) :
    Ensures I (modify f : ExceptT ε (StateM σ) PUnit) fun _ => True := by
  intro s hs
  exact ⟨h s hs, fun _ _ => trivial⟩

end Ensures

/-! ### Results that are there -/

/-- Returns something, and with it reaches a state of which `R` holds. -/
def Succeeds (m : ExceptT ε (StateM σ) α) (s : σ) (R : α → σ → Prop) : Prop :=
  ∃ a s', m.run s = (.ok a, s') ∧ R a s'

theorem Succeeds.bind {m : ExceptT ε (StateM σ) α} {f : α → ExceptT ε (StateM σ) β} {s : σ}
    {R : α → σ → Prop} {S : β → σ → Prop} (hm : Succeeds m s R)
    (hf : ∀ a s', R a s' → Succeeds (f a) s' S) : Succeeds (m >>= f) s S := by
  obtain ⟨a, s', hrun, hR⟩ := hm
  obtain ⟨b, s'', hrun', hS⟩ := hf a s' hR
  refine ⟨b, s'', ?_, hS⟩
  rw [Ensures.run_bind, hrun]
  exact hrun'

/-- If only one result is possible, it is the result. -/
theorem Succeeds.eq_ok {m : ExceptT ε (StateM σ) α} {s : σ} {a : α} {R : σ → Prop}
    (h : Succeeds m s fun b s' => b = a ∧ R s') : (m.run s).1 = .ok a := by
  obtain ⟨_, s', hrun, rfl, -⟩ := h
  rw [hrun]

theorem Succeeds.pure {a : α} {s : σ} {R : α → σ → Prop} (h : R a s) :
    Succeeds (Pure.pure a : ExceptT ε (StateM σ) α) s R :=
  ⟨a, s, rfl, h⟩

theorem Succeeds.discard {m : ExceptT ε (StateM σ) α} {s : σ} {R : σ → Prop}
    (h : Succeeds m s fun _ s' => R s') : Succeeds (discard m) s fun _ s' => R s' := by
  show Succeeds ((fun _ => ()) <$> m) s _
  rw [map_eq_pure_bind]
  exact h.bind fun _ _ hs' => Succeeds.pure hs'

/-- Returns something from every state. -/
def Returns (m : ExceptT ε (StateM σ) α) : Prop := ∀ s, Succeeds m s fun _ _ => True

namespace Returns

theorem pure (a : α) : Returns (Pure.pure a : ExceptT ε (StateM σ) α) :=
  fun _ => Succeeds.pure trivial

theorem bind {m : ExceptT ε (StateM σ) α} {f : α → ExceptT ε (StateM σ) β} (hm : Returns m)
    (hf : ∀ a, Returns (f a)) : Returns (m >>= f) :=
  fun s => (hm s).bind fun a s' _ => hf a s'

theorem mapM {f : α → ExceptT ε (StateM σ) β} {xs : List α} (h : ∀ x ∈ xs, Returns (f x)) :
    Returns (xs.mapM f) := by
  induction xs with
  | nil => exact pure []
  | cons x xs ih =>
      rw [List.mapM_cons]
      refine bind (h x (by simp)) fun y => ?_
      exact bind (ih fun x' hx' => h x' (List.mem_cons_of_mem x hx')) fun ys => pure (y :: ys)

/-- What returns and ensures something returns just that, and keeps the invariant. -/
theorem succeeds {m : ExceptT ε (StateM σ) α} (h : Returns m) {I : σ → Prop} {Q : α → Prop}
    (hm : Ensures I m Q) {s : σ} (hs : I s) : Succeeds m s fun a s' => Q a ∧ I s' := by
  obtain ⟨a, s', hrun, -⟩ := h s
  obtain ⟨hI, hQ⟩ := hm s hs
  rw [hrun] at hI hQ
  exact ⟨a, s', hrun, hQ a rfl, hI⟩

end Returns

end Phrasebook
