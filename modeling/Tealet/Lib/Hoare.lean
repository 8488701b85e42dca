import Mathlib.Logic.Basic

/-!
# Pre- and postconditions for programs that may fault

`Sat E Q x` says of a computation `x : Except ε α` that a result satisfies
`Q` and a fault satisfies `E`. With `E := fun _ => False` it is total
correctness, with `E := fun _ => True` partial correctness, and in between
it says which faults are possible.
-/

namespace Hoare

variable {ε α β : Type}

def Sat (E : ε → Prop) (Q : α → Prop) : Except ε α → Prop
  | .ok a => Q a
  | .error e => E e

variable {E E' : ε → Prop} {Q Q' : α → Prop} {x : Except ε α}

@[simp] theorem sat_ok {a : α} : Sat E Q (.ok a) ↔ Q a := Iff.rfl

@[simp] theorem sat_error {e : ε} : Sat E Q (.error e : Except ε α) ↔ E e := Iff.rfl

@[simp] theorem sat_pure {a : α} : Sat E Q (pure a) ↔ Q a := Iff.rfl

/-- Sequencing: the first result satisfies what the second needs. -/
theorem sat_bind {R : β → Prop} {f : α → Except ε β} :
    Sat E R (x >>= f) ↔ Sat E (fun a => Sat E R (f a)) x := by
  cases x <;> rfl

/-- The steps of a symbolic run. -/
theorem ok_bind (a : α) (f : α → Except ε β) : ((.ok a : Except ε α) >>= f) = f a := rfl

theorem error_bind (e : ε) (f : α → Except ε β) : ((.error e : Except ε α) >>= f) = .error e := rfl

theorem pure_eq_ok (a : α) : (pure a : Except ε α) = .ok a := rfl

theorem Sat.mono (h : Sat E Q x) (hE : ∀ e, E e → E' e) (hQ : ∀ a, Q a → Q' a) :
    Sat E' Q' x := by
  cases x with
  | ok a => exact hQ a h
  | error e => exact hE e h

theorem Sat.imp (h : Sat E Q x) (hQ : ∀ a, Q a → Q' a) : Sat E Q' x :=
  h.mono (fun _ he => he) hQ

theorem Sat.bind {R : β → Prop} {f : α → Except ε β} (h : Sat E Q x)
    (hf : ∀ a, Q a → Sat E R (f a)) : Sat E R (x >>= f) :=
  sat_bind.mpr (h.imp hf)

theorem Sat.and {P : α → Prop} (h : Sat E Q x) (h' : Sat E' P x) :
    Sat E (fun a => Q a ∧ P a) x := by
  cases x with
  | ok a => exact ⟨h, h'⟩
  | error e => exact h

/-- A result may be remembered together with what it satisfies. -/
theorem Sat.with_eq (h : Sat E Q x) : Sat E (fun a => x = .ok a ∧ Q a) x := by
  cases x with
  | ok a => exact ⟨rfl, h⟩
  | error e => exact h

/-! The rules below leave it to unification to find decision procedures,
so that they apply to a term whatever instance it was elaborated with. -/

theorem Sat.run {R : β → Prop} {f : α → Except ε β} {a : α} (hx : x = .ok a)
    (hf : Sat E R (f a)) : Sat E R (x >>= f) := by
  rw [hx]
  exact hf

theorem Sat.ite_true {p : Prop} {inst : Decidable p} {y : Except ε α} (hp : p) (hx : Sat E Q x) :
    Sat E Q (ite p x y) := by
  rw [if_pos hp]
  exact hx

theorem Sat.ite_false {p : Prop} {inst : Decidable p} {y : Except ε α} (hp : ¬ p)
    (hy : Sat E Q y) : Sat E Q (ite p x y) := by
  rw [if_neg hp]
  exact hy

/-- Reading a specification off a run that returned. -/
theorem Sat.result (h : Sat E Q x) {a : α} (hx : x = .ok a) : Q a := by
  rw [hx] at h
  exact h

theorem Sat.fault (h : Sat E Q x) {e : ε} (hx : x = .error e) : E e := by
  rw [hx] at h
  exact h

theorem bind_ok {f : α → Except ε β} {b : β} (h : (x >>= f) = .ok b) :
    ∃ a, x = .ok a ∧ f a = .ok b := by
  cases x with
  | ok a => exact ⟨a, rfl, h⟩
  | error e => cases h

end Hoare
