/-!
What the outcome of a computation tells about the parts that it was made of.
-/

namespace FragmentLisp

theorem bind_eq_ok {Error First Second : Type} {first : Except Error First}
    {rest : First → Except Error Second} {result : Second} :
    (first >>= rest) = .ok result ↔ ∃ value, first = .ok value ∧ rest value = .ok result := by
  cases first with
  | error error => simp [bind, Except.bind]
  | ok value => simp [bind, Except.bind]

theorem bind_eq_error {Error First Second : Type} {first : Except Error First}
    {rest : First → Except Error Second} {error : Error} :
    (first >>= rest) = .error error ↔
      first = .error error ∨ ∃ value, first = .ok value ∧ rest value = .error error := by
  cases first with
  | error error => simp [bind, Except.bind]
  | ok value => simp [bind, Except.bind]

@[simp] theorem map_ok {Error First Second : Type} (change : First → Second) (value : First) :
    change <$> (.ok value : Except Error First) = .ok (change value) := rfl

theorem mapError_eq_ok {Failure Other Result : Type} {outcome : Except Failure Result}
    {convert : Failure → Other} {result : Result} :
    outcome.mapError convert = .ok result ↔ outcome = .ok result := by
  cases outcome with
  | error error => exact ⟨fun same => (by cases same), fun same => (by cases same)⟩
  | ok found =>
      constructor
      · intro same
        exact congrArg Except.ok (Except.ok.inj same)
      · intro same
        exact congrArg Except.ok (Except.ok.inj same)

theorem mapError_eq_error {Failure Other Result : Type} {outcome : Except Failure Result}
    {convert : Failure → Other} {other : Other} :
    outcome.mapError convert = .error other ↔ ∃ failure, outcome = .error failure ∧
      convert failure = other := by
  cases outcome with
  | error error =>
      constructor
      · intro same
        exact ⟨error, rfl, Except.error.inj same⟩
      · rintro ⟨failure, same, converted⟩
        cases same
        exact congrArg Except.error converted
  | ok found => exact ⟨fun same => (by cases same), fun ⟨_, same, _⟩ => (by cases same)⟩

end FragmentLisp
