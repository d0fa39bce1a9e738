/-! Computations that can fail, taken apart at their successes: a sequence of steps gives a result
exactly if each of its steps does. A family of computations is uniform if all of them fail alike or all
of them succeed, with values of one pattern. -/

namespace TableClient

variable {ε α β : Type}

@[simp] theorem ok_bind (a : α) (f : α → Except ε β) : (Except.ok a >>= f) = f a := rfl

@[simp] theorem error_bind (e : ε) (f : α → Except ε β) : (Except.error e >>= f) = .error e := rfl

theorem bind_eq_ok_iff {x : Except ε α} {f : α → Except ε β} {b : β} :
    x >>= f = .ok b ↔ ∃ a, x = .ok a ∧ f a = .ok b := by
  cases x with
  | error e => simp
  | ok a => simp

theorem map_eq_ok_iff {x : Except ε α} {f : α → β} {b : β} :
    x.map f = .ok b ↔ ∃ a, x = .ok a ∧ f a = b := by
  cases x with
  | error e => simp [Except.map]
  | ok a => simp [Except.map]

/-! ### Families -/

/-- All computations of a family fail alike, or their values are those of one pattern, of which `P` holds. -/
def Uniform {ι κ : Type} (F : ι → Except ε α) (value : κ → ι → α) (P : κ → Prop) : Prop :=
  (∃ e, ∀ i, F i = .error e) ∨ ∃ k, P k ∧ ∀ i, F i = .ok (value k i)

namespace Uniform

variable {ι κ κ' : Type} {F : ι → Except ε α} {value : κ → ι → α} {P : κ → Prop}
  {value' : κ' → ι → β} {Q : κ' → Prop}

theorem error {e : ε} (h : ∀ i, F i = .error e) : Uniform F value P :=
  .inl ⟨e, h⟩

theorem ok {k : κ} (hk : P k) (h : ∀ i, F i = .ok (value k i)) : Uniform F value P :=
  .inr ⟨k, hk, h⟩

theorem congr {G : ι → Except ε α} (h : Uniform F value P) (heq : ∀ i, G i = F i) :
    Uniform G value P := by
  rwa [funext heq]

theorem mono {P' : κ → Prop} (h : Uniform F value P) (hP : ∀ k, P k → P' k) : Uniform F value P' := by
  rcases h with ⟨e, he⟩ | ⟨k, hk, hok⟩
  · exact .error he
  · exact .ok (hP k hk) hok

/-- Uniform computations one after the other are uniform. -/
theorem bind {H : ι → α → Except ε β} (h : Uniform F value P)
    (hH : ∀ k, P k → Uniform (fun i => H i (value k i)) value' Q) :
    Uniform (fun i => F i >>= H i) value' Q := by
  rcases h with ⟨e, he⟩ | ⟨k, hk, hok⟩
  · exact .error fun i => by rw [he, error_bind]
  · exact (hH k hk).congr fun i => by rw [hok, ok_bind]

/-- A first step that is the same for the whole family. -/
theorem const_bind {γ : Type} {x : Except ε γ} {H : ι → γ → Except ε β}
    (hH : ∀ c, x = .ok c → Uniform (fun i => H i c) value' Q) :
    Uniform (fun i => x >>= H i) value' Q := by
  cases x with
  | error e => exact .error fun i => error_bind e _
  | ok c => exact hH c rfl

end Uniform

end TableClient
