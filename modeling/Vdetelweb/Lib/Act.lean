import Mathlib

/-!
# Pieces of code over a state

`Act ε σ α` is a piece of code over a state `σ` that ends with an `α`, or with an
exception of type `ε`, or never. An exception or an endless wait keeps what was done
to the state before it.

`Keeps R x` says what a piece of code may do to the state: however it ends, the states
before and after are related by `R`. For a reflexive and transitive `R` it is proved
piece by piece (`Keeps.bind`).
-/

namespace Effect

/-- How a piece of code ends: with a value, with an exception raised at a line of its
source file, or never, because it waits for input that does not come. -/
inductive Out (ε α : Type)
  | ret (a : α)
  | raise (e : ε) (line : ℕ)
  | block
  deriving DecidableEq, Repr

theorem Out.ret_ne_block {ε α : Type} (a : α) : (ret a : Out ε α) ≠ block := by
  intro h
  cases h

theorem Out.raise_ne_block {ε α : Type} (e : ε) (l : ℕ) : (raise e l : Out ε α) ≠ block := by
  intro h
  cases h

theorem Out.raise_ne_ret {ε α : Type} (e : ε) (l : ℕ) (a : α) : (raise e l : Out ε α) ≠ ret a := by
  intro h
  cases h

theorem Out.block_ne_ret {ε α : Type} (a : α) : (block : Out ε α) ≠ ret a := by
  intro h
  cases h

theorem Out.block_ne_raise {ε α : Type} (e : ε) (l : ℕ) : (block : Out ε α) ≠ raise e l := by
  intro h
  cases h

theorem Out.ret_ne_raise {ε α : Type} (a : α) (e : ε) (l : ℕ) : (ret a : Out ε α) ≠ raise e l := by
  intro h
  cases h

/-- `try: ... finally: return`: an exception is swallowed. -/
def Out.swallow {ε α : Type} : Out ε α → Out ε (Option α)
  | .ret a => .ret (some a)
  | .raise _ _ => .ret none
  | .block => .block

/-- The value, as another one. -/
def Out.map {ε α β : Type} (f : α → β) : Out ε α → Out ε β
  | .ret a => .ret (f a)
  | .raise e l => .raise e l
  | .block => .block

/-- A piece of code: how it ends, and the state it leaves behind, also when it raises. -/
def Act (ε σ α : Type) : Type := σ → Out ε α × σ

namespace Act

variable {ε σ α β : Type}

instance : Monad (Act ε σ) where
  pure a := fun s => (.ret a, s)
  bind x f := fun s =>
    match x s with
    | (.ret a, s) => f a s
    | (.raise e l, s) => (.raise e l, s)
    | (.block, s) => (.block, s)

/-- The state. -/
def get : Act ε σ σ := fun s => (.ret s, s)

/-- A change of the state. -/
def modify (f : σ → σ) : Act ε σ Unit := fun s => (.ret (), f s)

/-- `raise e`, at a line. -/
def raise (e : ε) (line : ℕ) : Act ε σ α := fun s => (.raise e line, s)

/-- A value that may be missing, with what is raised then. -/
def ofOption (o : Option α) (e : ε) (line : ℕ) : Act ε σ α :=
  match o with
  | some a => pure a
  | none => raise e line

/-- `try: x finally: return ...`. -/
def attempt (x : Act ε σ α) : Act ε σ (Option α) := fun s => ((x s).1.swallow, (x s).2)

@[simp] theorem pure_apply (a : α) (s : σ) : (pure a : Act ε σ α) s = (.ret a, s) := rfl

@[simp] theorem get_apply (s : σ) : (get : Act ε σ σ) s = (.ret s, s) := rfl

@[simp] theorem modify_apply (f : σ → σ) (s : σ) :
    (modify f : Act ε σ Unit) s = (.ret (), f s) := rfl

@[simp] theorem raise_apply (e : ε) (l : ℕ) (s : σ) :
    (raise e l : Act ε σ α) s = (.raise e l, s) := rfl

theorem ofOption_apply (o : Option α) (e : ε) (l : ℕ) (s : σ) :
    (ofOption o e l : Act ε σ α) s = (match o with
      | some a => .ret a
      | none => .raise e l, s) := by
  cases o <;> rfl

theorem bind_apply (x : Act ε σ α) (f : α → Act ε σ β) (s : σ) :
    (x >>= f) s =
      match x s with
      | (.ret a, s) => f a s
      | (.raise e l, s) => (.raise e l, s)
      | (.block, s) => (.block, s) := rfl

@[simp] theorem attempt_apply (x : Act ε σ α) (s : σ) :
    attempt x s = ((x s).1.swallow, (x s).2) := rfl

/-- A sequence ends with a value exactly when both its parts do. -/
theorem bind_eq_ret {x : Act ε σ α} {f : α → Act ε σ β} {s : σ} {b : β} :
    ((x >>= f) s).1 = .ret b ↔ ∃ a, (x s).1 = .ret a ∧ (f a (x s).2).1 = .ret b := by
  rw [bind_apply]
  rcases x s with ⟨o, s'⟩
  cases o <;> simp

/-- A last part that leaves the state alone. -/
theorem bind_state {x : Act ε σ α} {f : α → Act ε σ β} (hf : ∀ a s, (f a s).2 = s) (s : σ) :
    ((x >>= f) s).2 = (x s).2 := by
  rw [bind_apply]
  rcases x s with ⟨o, s'⟩
  cases o with
  | ret a => exact hf a s'
  | raise e l => rfl
  | block => rfl

/-! ## What a piece of code may do to the state -/

/-- However `x` ends, it leaves a state that `R` relates to the one before. -/
def Keeps (R : σ → σ → Prop) (x : Act ε σ α) : Prop := ∀ s, R s (x s).2

variable {R : σ → σ → Prop}

theorem Keeps.modify {f : σ → σ} (h : ∀ s, R s (f s)) : Keeps R (modify f : Act ε σ Unit) := h

theorem Keeps.attempt {x : Act ε σ α} (h : Keeps R x) : Keeps R (attempt x) := h

/-- **The rule for sequences.** -/
theorem Keeps.bind [IsTrans σ R] {x : Act ε σ α} {f : α → Act ε σ β} (hx : Keeps R x)
    (hf : ∀ a, Keeps R (f a)) : Keeps R (x >>= f) := by
  intro s
  have h := hx s
  rw [bind_apply]
  rcases hxs : x s with ⟨o, s'⟩
  rw [hxs] at h
  cases o with
  | ret a => exact IsTrans.trans _ _ _ h (hf a s')
  | raise e l => exact h
  | block => exact h

variable [Std.Refl R]

theorem Keeps.pure (a : α) : Keeps R (pure a : Act ε σ α) := fun s => Std.Refl.refl s

theorem Keeps.get : Keeps R (get : Act ε σ σ) := fun s => Std.Refl.refl s

theorem Keeps.raise (e : ε) (l : ℕ) : Keeps R (raise e l : Act ε σ α) := fun s => Std.Refl.refl s

theorem Keeps.ofOption (o : Option α) (e : ε) (l : ℕ) : Keeps R (ofOption o e l : Act ε σ α) := by
  cases o
  · exact Keeps.raise e l
  · exact Keeps.pure _

end Act

end Effect
