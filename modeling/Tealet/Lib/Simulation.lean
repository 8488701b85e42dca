import Mathlib.Logic.Relation

/-!
# Forward simulations

Machines with labelled steps. `Forward A B allow R` says that `R` relates
the states of `A` to those of `B` such that every step of `A` is followed
by some steps of `B`, with labels that the step allows. Simulations follow
runs, and compose. For machines given by computations, `Mirrors` relates the
computations.
-/

namespace Simulation

universe u w x l m n

variable {α : Type u} {β : Type w} {γ : Type x} {L : Type l} {M : Type m} {N : Type n}

/-- Several steps, with the list of their labels. -/
inductive Steps (step : L → α → α → Prop) (a : α) : List L → α → Prop where
  | nil : Steps step a [] a
  | snoc {ls : List L} {l : L} {b c : α} :
      Steps step a ls b → step l b c → Steps step a (ls ++ [l]) c

section Steps

variable {step : L → α → α → Prop} {a b c : α} {l : L} {ls ls' : List L}

theorem Steps.one (h : step l a b) : Steps step a [l] b := .snoc .nil h

theorem Steps.append (h : Steps step a ls b) (h' : Steps step b ls' c) :
    Steps step a (ls ++ ls') c := by
  induction h' with
  | nil =>
      rw [List.append_nil]
      exact h
  | snoc _ hs ih =>
      rw [← List.append_assoc]
      exact ih.snoc hs

/-- An invariant of the steps. -/
theorem Steps.invariant {I : α → Prop} (h : Steps step a ls b) (h0 : I a)
    (hstep : ∀ l a a', I a → step l a a' → I a') : I b := by
  induction h with
  | nil => exact h0
  | snoc _ hs ih => exact hstep _ _ _ ih hs

end Steps

/-- `R` is a forward simulation. -/
def Forward (A : L → α → α → Prop) (B : M → β → β → Prop) (allow : α → L → M → Prop)
    (R : α → β → Prop) : Prop :=
  ∀ l a a' b, R a b → A l a a' → ∃ ms b', (∀ m ∈ ms, allow a l m) ∧ Steps B b ms b' ∧ R a' b'

section Forward

variable {A : L → α → α → Prop} {B : M → β → β → Prop} {C : N → γ → γ → Prop}
  {allow : α → L → M → Prop} {allow' : β → M → N → Prop} {R : α → β → Prop} {R' : β → γ → Prop}
  {a a' : α} {b : β} {ls : List L}

/-- A run is followed by a run. -/
theorem Forward.run (F : Forward A B allow R) (h : Steps A a ls a') (hR : R a b) :
    ∃ ms b', (∀ m ∈ ms, ∃ a₀, ∃ l ∈ ls, allow a₀ l m) ∧ Steps B b ms b' ∧ R a' b' := by
  induction h with
  | nil => exact ⟨[], b, nofun, .nil, hR⟩
  | @snoc ls l a₁ a₂ _ hs ih =>
      obtain ⟨ms, b₁, hms, h₁, hR₁⟩ := ih
      obtain ⟨ms', b₂, hms', h₂, hR₂⟩ := F l a₁ a₂ b₁ hR₁ hs
      refine ⟨ms ++ ms', b₂, fun m hm => ?_, h₁.append h₂, hR₂⟩
      rcases List.mem_append.mp hm with hm | hm
      · obtain ⟨a₀, l₀, hl₀, ha₀⟩ := hms m hm
        exact ⟨a₀, l₀, List.mem_append_left _ hl₀, ha₀⟩
      · exact ⟨a₁, l, List.mem_append_right _ List.mem_cons_self, hms' m hm⟩

/-- One simulation after the other. -/
theorem Forward.comp (F : Forward A B allow R) (G : Forward B C allow' R') :
    Forward A C (fun a l n => ∃ b m, allow a l m ∧ allow' b m n)
      (fun a c => ∃ b, R a b ∧ R' b c) := by
  rintro l a a' c ⟨b, hR, hR'⟩ hs
  obtain ⟨ms, b', hms, hsteps, hR₁⟩ := F l a a' b hR hs
  obtain ⟨ns, c', hns, hsteps', hR₂⟩ := G.run hsteps hR'
  refine ⟨ns, c', fun n hn => ?_, hsteps', b', hR₁, hR₂⟩
  obtain ⟨b₀, m, hm, hb₀⟩ := hns n hn
  exact ⟨b₀, m, hms m hm, hb₀⟩

end Forward

/-! ## Computations that mirror each other

`y = x.map φ`: the computation `y` does what `x` does, on the images under
`φ`. `Mirrors P φ x y`: it does so where `x` has a result with `P`. -/

section Follow

variable {ε : Type l} {α β γ δ : Type u} {φ : α → β} {ψ : γ → δ} {x : Except ε α}

theorem bind_mapped {f : α → Except ε γ} {g : α → Except ε δ}
    (h : ∀ a, g a = (f a).map ψ) : (x >>= g) = (x >>= f).map ψ := by
  cases x with
  | ok a => exact h a
  | error e => rfl

/-- ... when the first computation is mapped as well. -/
theorem map_bind_mapped {f : α → Except ε γ} {g : β → Except ε δ}
    (h : ∀ a, g (φ a) = (f a).map ψ) : (x.map φ >>= g) = (x >>= f).map ψ := by
  cases x with
  | ok a => exact h a
  | error e => rfl

theorem ite_mapped {p : Prop} {inst : Decidable p} {x₁ x₂ : Except ε α} {y₁ y₂ : Except ε β}
    (h₁ : y₁ = x₁.map φ) (h₂ : y₂ = x₂.map φ) : ite p y₁ y₂ = (ite p x₁ x₂).map φ := by
  by_cases hp : p
  · rw [if_pos hp, if_pos hp]
    exact h₁
  · rw [if_neg hp, if_neg hp]
    exact h₂

def Mirrors (P : α → Prop) (φ : α → β) (x : Except ε α) (y : Except ε β) : Prop :=
  ∀ a, x = .ok a → P a → y = .ok (φ a)

variable {P : α → Prop} {Q : γ → Prop} {y : Except ε β}

theorem Mirrors.of_map (h : y = x.map φ) : Mirrors P φ x y := by
  rintro a rfl -
  exact h

theorem Mirrors.mono {P' : α → Prop} (h : Mirrors P φ x y) (hP : ∀ a, P' a → P a) :
    Mirrors P' φ x y :=
  fun a ha hP' => h a ha (hP a hP')

/-- Sequencing; a result without `P` leads to none with `Q`. -/
theorem Mirrors.bind {f : α → Except ε γ} {g : β → Except ε δ} (h : Mirrors P φ x y)
    (hf : ∀ a, x = .ok a → P a → Mirrors Q ψ (f a) (g (φ a)))
    (hno : ∀ a c, ¬ P a → f a = .ok c → ¬ Q c) : Mirrors Q ψ (x >>= f) (y >>= g) := by
  intro c hc hQ
  cases hx : x with
  | error e =>
      rw [hx] at hc
      cases hc
  | ok a =>
      rw [hx] at hc
      by_cases hP : P a
      · rw [h a hx hP]
        exact hf a hx hP c hc hQ
      · exact absurd hQ (hno a c hP hc)

/-- The first computation is the same, or mapped. -/
theorem Mirrors.same {f : α → Except ε γ} {g : α → Except ε δ}
    (hf : ∀ a, x = .ok a → Mirrors Q ψ (f a) (g a)) : Mirrors Q ψ (x >>= f) (x >>= g) := by
  cases x with
  | ok a => exact hf a rfl
  | error e =>
      intro c hc
      cases hc

theorem Mirrors.mapped {f : α → Except ε γ} {g : β → Except ε δ}
    (hf : ∀ a, x = .ok a → Mirrors Q ψ (f a) (g (φ a))) :
    Mirrors Q ψ (x >>= f) (x.map φ >>= g) := by
  cases x with
  | ok a => exact hf a rfl
  | error e =>
      intro c hc
      cases hc

theorem Mirrors.ite {p : Prop} {inst : Decidable p} {x₁ x₂ : Except ε α} {y₁ y₂ : Except ε β}
    (h₁ : p → Mirrors P φ x₁ y₁) (h₂ : ¬ p → Mirrors P φ x₂ y₂) :
    Mirrors P φ (ite p x₁ x₂) (ite p y₁ y₂) := by
  by_cases hp : p
  · rw [if_pos hp, if_pos hp]
    exact h₁ hp
  · rw [if_neg hp, if_neg hp]
    exact h₂ hp

theorem Mirrors.ok {a : α} : Mirrors P φ (.ok a : Except ε α) (.ok (φ a)) := of_map rfl

end Follow

end Simulation
