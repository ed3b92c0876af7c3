/-!
# Outcomes in sequence

When a sequence of computations that may fail succeeds, each of them succeeded.  When it fails, it
does so as the first of them that failed.
-/

namespace OpGraph.Outcome

variable {ε α β : Type}

theorem bind_eq_ok {first : Except ε α} {next : α → Except ε β} {result : β} :
    first >>= next = .ok result ↔ ∃ value, first = .ok value ∧ next value = .ok result := by
  cases first with
  | error cause =>
    constructor
    · intro success
      cases success
    · rintro ⟨_, impossible, _⟩
      cases impossible
  | ok value =>
    constructor
    · intro success
      exact ⟨value, rfl, success⟩
    · rintro ⟨_, same, success⟩
      obtain rfl := Except.ok.inj same
      exact success

theorem map_eq_ok {first : Except ε α} {change : α → β} {result : β} :
    change <$> first = .ok result ↔ ∃ value, first = .ok value ∧ change value = result := by
  cases first with
  | error cause =>
    constructor
    · intro success
      cases success
    · rintro ⟨_, impossible, _⟩
      cases impossible
  | ok value =>
    constructor
    · intro success
      exact ⟨value, rfl, Except.ok.inj success⟩
    · rintro ⟨_, same, success⟩
      obtain rfl := Except.ok.inj same
      rw [← success]
      rfl

theorem bind_eq_error {first : Except ε α} {next : α → Except ε β} {cause : ε} :
    first >>= next = .error cause ↔
      first = .error cause ∨ ∃ value, first = .ok value ∧ next value = .error cause := by
  cases first with
  | error other =>
    constructor
    · intro failure
      exact Or.inl (congrArg Except.error (Except.error.inj failure))
    · rintro (same | ⟨_, impossible, _⟩)
      · exact congrArg Except.error (Except.error.inj same)
      · cases impossible
  | ok value =>
    constructor
    · intro failure
      exact Or.inr ⟨value, rfl, failure⟩
    · rintro (impossible | ⟨_, same, failure⟩)
      · cases impossible
      · obtain rfl := Except.ok.inj same
        exact failure

theorem map_eq_error {first : Except ε α} {change : α → β} {cause : ε} :
    change <$> first = .error cause ↔ first = .error cause := by
  cases first with
  | error other =>
    constructor
    · intro failure
      exact congrArg Except.error (Except.error.inj failure)
    · intro same
      exact congrArg Except.error (Except.error.inj same)
  | ok value =>
    constructor
    · intro impossible
      cases impossible
    · intro impossible
      cases impossible

end OpGraph.Outcome
