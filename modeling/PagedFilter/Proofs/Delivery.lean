import PagedFilter.Error
/-! An entry point delivers a property when all its results have it and it never faults. -/
namespace PagedFilter

@[simp] theorem ok_bind {ε α β : Type} (a : α) (f : α → Except ε β) :
    (Except.ok a : Except ε α) >>= f = f a := rfl

@[simp] theorem lift_ok {α : Type} (a : α) :
    (liftM (Except.ok a : Except Fault α) : Except Failure α) = .ok a := rfl

theorem lift_eq_ok {α : Type} {x : Except Fault α} {a : α} :
    (liftM x : Except Failure α) = .ok a ↔ x = .ok a := by
  cases x with
  | error e => exact ⟨nofun, nofun⟩
  | ok b => rw [lift_ok, Except.ok.injEq, Except.ok.injEq]

theorem bind_eq_ok {ε α β : Type} {x : Except ε α} {f : α → Except ε β} {b : β} :
    x >>= f = .ok b ↔ ∃ a, x = .ok a ∧ f a = .ok b := by
  cases x with
  | error e => exact ⟨nofun, nofun⟩
  | ok a => simp

theorem map_eq_ok {ε α β : Type} {x : Except ε α} {f : α → β} {b : β} :
    x.map f = .ok b ↔ ∃ a, x = .ok a ∧ f a = b := by
  cases x with
  | error e => exact ⟨nofun, nofun⟩
  | ok a => simp [Except.map]

/-- The outcome is a refusal or a result with the property, and not a fault. -/
def Delivers {α : Type} (P : α → Prop) : Except Failure α → Prop
  | .ok a => P a
  | .error (.refused _) => True
  | .error (.fault _) => False

namespace Delivers
variable {α β : Type} {P : α → Prop} {Q : β → Prop}

theorem refuse (cause : Refusal) : Delivers P (refuse cause) := trivial

theorem bind {x : Except Failure α} {f : α → Except Failure β} (hx : Delivers P x)
    (hf : ∀ a, P a → Delivers Q (f a)) : Delivers Q (x >>= f) := by
  match x, hx with
  | .ok a, ha => exact hf a ha
  | .error (.refused _), _ => trivial

theorem mono {P' : α → Prop} {x : Except Failure α} (hx : Delivers P x)
    (h : ∀ a, P a → P' a) : Delivers P' x := by
  match x, hx with
  | .ok a, ha => exact h a ha
  | .error (.refused _), _ => trivial

theorem of_refusal (x : Except Refusal α) :
    Delivers (fun a => x = .ok a) (liftM x : Except Failure α) := by
  cases x with
  | error cause => trivial
  | ok a => rfl

theorem of_frameError (x : Except FrameError α) :
    Delivers (fun a => x = .ok a) (liftM x : Except Failure α) := by
  cases x with
  | error cause => trivial
  | ok a => rfl

theorem of_eq_ok {x : Except Failure α} {a : α} (hx : Delivers P x) (h : x = .ok a) : P a := by
  rwa [h] at hx

end Delivers

/-- The outcome is the refusal that the rule names, or else a result with the property. -/
structure Answers {α : Type} (P : α → Prop) (rule : Option Refusal) (x : Except Failure α) :
    Prop where
  refused : ∀ cause, rule = some cause → x = refuse cause
  made : rule = none → ∃ a, x = .ok a ∧ P a

namespace Answers
variable {α β : Type} {P : α → Prop} {Q : β → Prop} {r s : Option Refusal} {x : Except Failure α}

theorem refuse (cause : Refusal) : Answers P (some cause) (PagedFilter.refuse cause) :=
  ⟨fun _ h => by rw [Option.some.inj h], nofun⟩

theorem ok {a : α} (h : P a) : Answers P none (.ok a) :=
  ⟨nofun, fun _ => ⟨a, rfl, h⟩⟩

/-- Sequencing: the second step is refused only where the first was not. -/
theorem bind {f : α → Except Failure β} (hx : Answers P r x)
    (hf : ∀ a, P a → Answers Q s (f a)) : Answers Q (r.or s) (x >>= f) := by
  cases r with
  | none =>
    obtain ⟨a, rfl, ha⟩ := hx.made rfl
    exact hf a ha
  | some cause =>
    rw [hx.refused cause rfl]
    exact refuse cause

theorem bind_ok {f : α → Except Failure β} (hx : Answers P r x)
    (hf : ∀ a, P a → ∃ b, f a = .ok b ∧ Q b) : Answers Q r (x >>= f) := by
  rw [← Option.or_none (o := r)]
  exact hx.bind fun a ha => ⟨nofun, fun _ => hf a ha⟩

theorem mono {P' : α → Prop} (hx : Answers P r x) (h : ∀ a, P a → P' a) : Answers P' r x := by
  refine ⟨hx.refused, ?_⟩
  intro hr
  obtain ⟨a, ha, hP⟩ := hx.made hr
  exact ⟨a, ha, h a hP⟩

theorem delivers (hx : Answers P r x) : Delivers P x := by
  cases r with
  | none =>
    obtain ⟨a, rfl, ha⟩ := hx.made rfl
    exact ha
  | some cause =>
    rw [hx.refused cause rfl]
    exact Delivers.refuse cause

theorem of_eq_ok {a : α} (hx : Answers P r x) (h : x = .ok a) : r = none ∧ P a := by
  refine ⟨?_, hx.delivers.of_eq_ok h⟩
  cases r with
  | none => rfl
  | some cause =>
    have hrefused := hx.refused cause rfl
    rw [h] at hrefused
    exact nomatch hrefused

theorem eq_ok_iff {a : α} (hx : Answers (· = a) r x) : x = .ok a ↔ r = none := by
  cases r with
  | none =>
    obtain ⟨b, rfl, rfl⟩ := hx.made rfl
    exact ⟨fun _ => rfl, fun _ => rfl⟩
  | some cause =>
    rw [hx.refused cause rfl]
    exact ⟨nofun, nofun⟩

theorem ok_iff {y : Except Failure β} (hx : Answers P r x) (hy : Answers Q r y) :
    (∃ a, x = .ok a) ↔ ∃ b, y = .ok b := by
  cases r with
  | none =>
    obtain ⟨a, ha, -⟩ := hx.made rfl
    obtain ⟨b, hb, -⟩ := hy.made rfl
    exact ⟨fun _ => ⟨b, hb⟩, fun _ => ⟨a, ha⟩⟩
  | some cause =>
    rw [hx.refused cause rfl, hy.refused cause rfl]
    exact ⟨nofun, nofun⟩

theorem error_iff {y : Except Failure β} (hx : Answers P r x) (hy : Answers Q r y)
    (failure : Failure) : x = .error failure ↔ y = .error failure := by
  cases r with
  | none =>
    obtain ⟨a, rfl, -⟩ := hx.made rfl
    obtain ⟨b, rfl, -⟩ := hy.made rfl
    exact ⟨nofun, nofun⟩
  | some cause =>
    rw [hx.refused cause rfl, hy.refused cause rfl]
    simp only [PagedFilter.refuse, Except.error.injEq]

end Answers
end PagedFilter
