import Mathlib
import CompressedSensing.LeastSquares.Backend
/-!
# What a computation returns

A computation that makes requests starts with a count of the requests before it. `Returns x i a j`
says that it started at count `i`, succeeded with `a` and left the count at `j`. The lemmas take
a computation apart along its text, one step at a time.
-/

namespace CompressedSensing

lemma Except.ok_bind {ε α β : Type} (a : α) (f : α → Except ε β) : Except.ok a >>= f = f a := rfl

lemma Except.bind_eq_ok {ε α β : Type} {x : Except ε α} {f : α → Except ε β} {b : β} :
    x >>= f = .ok b ↔ ∃ a, x = .ok a ∧ f a = .ok b := by
  cases x with
  | ok a =>
    constructor
    · intro h
      exact ⟨a, rfl, h⟩
    · intro h
      rcases h with ⟨_, ⟨⟩, h⟩
      exact h
  | error e =>
    constructor
    · intro h
      rcases h with ⟨⟩
    · intro h
      rcases h with ⟨_, ⟨⟩, _⟩

lemma Except.bind_unit_eq_ok {ε β : Type} {x : Except ε Unit} {f : Unit → Except ε β} {b : β} :
    x >>= f = .ok b ↔ x = .ok () ∧ f () = .ok b := by
  rw [Except.bind_eq_ok]
  exact ⟨fun ⟨_, h⟩ => h, fun h => ⟨(), h⟩⟩

lemma Except.bind_congr {ε α β : Type} {x : Except ε α} {f g : α → Except ε β}
    (h : ∀ a, x = .ok a → f a = g a) : x >>= f = x >>= g := by
  cases x with
  | ok a => exact h a rfl
  | error e => rfl

namespace Solving

variable {T α β : Type} {i j : ℕ}

/-- From count `i` the computation succeeds with `a` and leaves count `j`. -/
def Returns (x : Solving α) (i : ℕ) (a : α) (j : ℕ) : Prop := x.run.run i = (.ok a, j)

/-- A computation returns one value at most. -/
lemma Returns.inj {x : Solving α} {a a' : α} {j' : ℕ} (h : x.Returns i a j)
    (h' : x.Returns i a' j') : a = a' ∧ j = j' := by
  unfold Returns at h h'
  rw [h] at h'
  cases h'
  exact ⟨rfl, rfl⟩

/-- Computations that always succeed are known by what they return. -/
lemma ext_of_returns {x y : Solving α} (h : ∀ i, ∃ a j, x.Returns i a j ∧ y.Returns i a j) :
    x = y := by
  funext i
  obtain ⟨a, j, hx, hy⟩ := h i
  exact hx.trans hy.symm

lemma returns_pure {a b : α} : (pure a : Solving α).Returns i b j ↔ b = a ∧ j = i := by
  unfold Returns
  constructor
  · intro h
    cases h
    exact ⟨rfl, rfl⟩
  · intro h
    rcases h with ⟨rfl, rfl⟩
    rfl

lemma not_returns_throw {e : Error} {b : α} : ¬ (throw e : Solving α).Returns i b j := by
  intro h
  cases h

/-- What comes after a computation starts at the count that it leaves, unless it fails. -/
lemma run_bind (x : Solving α) (f : α → Solving β) (i : ℕ) :
    (x >>= f).run.run i = match x.run.run i with
      | (.ok a, j) => (f a).run.run j
      | (.error e, j) => (.error e, j) := by
  -- the transformers unfold to a case distinction on how `x` ends
  show ExceptT.bindCont f (x i).1 (x i).2 = _
  show _ = match x i with
    | (.ok a, j) => (f a).run.run j
    | (.error e, j) => (.error e, j)
  rcases x i with ⟨a | e, j⟩ <;> rfl

/-- A sequence returns just if both parts return, one after the other. -/
lemma returns_bind {x : Solving α} {f : α → Solving β} {b : β} {k : ℕ} :
    (x >>= f).Returns i b k ↔ ∃ a j, x.Returns i a j ∧ (f a).Returns j b k := by
  unfold Returns
  rw [run_bind]
  rcases x.run.run i with ⟨e | a, j⟩
  · constructor
    · intro h
      rcases h with ⟨⟩
    · intro h
      rcases h with ⟨_, _, ⟨⟩, _⟩
  · constructor
    · intro h
      exact ⟨a, j, rfl, h⟩
    · intro h
      rcases h with ⟨_, _, ⟨⟩, h⟩
      exact h

/-- What follows is looked at only for answers that the first computation can give. -/
lemma bind_congr {x : Solving α} {f g : α → Solving β}
    (h : ∀ i a j, x.Returns i a j → f a = g a) : x >>= f = x >>= g := by
  refine funext fun i => ?_
  show (x >>= f).run.run i = (x >>= g).run.run i
  rw [run_bind, run_bind]
  cases hx : x.run.run i with
  | mk r j =>
    cases r with
    | ok a =>
      show (f a).run.run j = (g a).run.run j
      rw [h i a j hx]
    | error e => rfl

/-- A plain result is returned without a request. -/
lemma returns_ofExcept {r : Except Error α} {a : α} :
    (ofExcept r).Returns i a j ↔ r = .ok a ∧ j = i := by
  cases r with
  | ok b =>
    rw [ofExcept, returns_pure, Except.ok.injEq, eq_comm]
  | error e =>
    rw [ofExcept]
    exact ⟨fun h => absurd h not_returns_throw, fun ⟨h, _⟩ => by cases h⟩

/-- A step without a request comes first. -/
lemma returns_ofExcept_bind {r : Except Error α} {f : α → Solving β} {b : β} :
    (ofExcept r >>= f).Returns i b j ↔ ∃ a, r = .ok a ∧ (f a).Returns i b j := by
  rw [returns_bind]
  constructor
  · intro h
    rcases h with ⟨a, _, hr, h⟩
    rcases returns_ofExcept.1 hr with ⟨ha, rfl⟩
    exact ⟨a, ha, h⟩
  · intro h
    rcases h with ⟨a, ha, h⟩
    exact ⟨a, i, returns_ofExcept.2 ⟨ha, rfl⟩, h⟩

/-- A check comes first. -/
lemma returns_check_bind {r : Except Error Unit} {f : Unit → Solving β} {b : β} :
    (ofExcept r >>= f).Returns i b j ↔ r = .ok () ∧ (f ()).Returns i b j := by
  rw [returns_ofExcept_bind]
  exact ⟨fun ⟨_, h⟩ => h, fun h => ⟨(), h⟩⟩

/-- A request hands on the answer of the backend and is counted. -/
lemma returns_request {s : Backend T} {m n : ℕ} {a : DenseMatrix T m n} {b z : Signal T} :
    (request s a b).Returns i z j ↔ s.solve i a b = .ok z ∧ j = i + 1 := by
  unfold request
  rw [returns_bind]
  constructor
  · intro h
    rcases h with ⟨earlier, k, hcount, h⟩
    cases hcount
    rwa [returns_ofExcept] at h
  · intro h
    exact ⟨i, i + 1, rfl, returns_ofExcept.2 h⟩

end Solving
end CompressedSensing
