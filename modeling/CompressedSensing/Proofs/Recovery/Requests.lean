import Mathlib
import CompressedSensing.Proofs.Recovery.Solving
/-!
# What an outcome owes to the backend

Two ways in which the outcome of a computation can depend on the requests it makes.

* `IgnoresCount x`: the outcome does not depend on how many requests came before. Every
  computation that asks a pure backend is like that.
* `OnlyRefused f s`: the computation `f s` succeeds, or it fails at a request that the backend `s`
  refuses. Nothing else makes it fail.

For the second, `f` maps a backend to the computation that asks it. That the computation makes a
certain request is said by `Asks`: if that one request were refused, the computation would fail
there and then. Both properties are closed under sequencing, so they are read off the text of a
computation.
-/

namespace CompressedSensing

namespace Solving

variable {T α β : Type} {i j : ℕ}

/-- From count `i` the computation fails with `e` and leaves count `j`. -/
def Fails (x : Solving α) (i : ℕ) (e : Error) (j : ℕ) : Prop := x.run.run i = (.error e, j)

/-- A computation returns or fails. -/
lemma returns_or_fails (x : Solving α) (i : ℕ) :
    (∃ a j, x.Returns i a j) ∨ ∃ e j, x.Fails i e j := by
  unfold Returns Fails
  rcases x.run.run i with ⟨e | a, j⟩
  · exact .inr ⟨e, j, rfl⟩
  · exact .inl ⟨a, j, rfl⟩

/-- A computation that returns does not fail. -/
lemma Returns.not_fails {x : Solving α} {a : α} {e : Error} {k : ℕ} (h : x.Returns i a j) :
    ¬ x.Fails i e k := by
  intro h'
  unfold Returns at h
  unfold Fails at h'
  rw [h] at h'
  cases h'

/-- A computation fails in one way at most. -/
lemma Fails.inj {x : Solving α} {e e' : Error} {k : ℕ} (h : x.Fails i e j)
    (h' : x.Fails i e' k) : e = e' ∧ j = k := by
  unfold Fails at h h'
  rw [h] at h'
  cases h'
  exact ⟨rfl, rfl⟩

lemma fails_ofExcept {r : Except Error α} {e : Error} :
    (ofExcept r).Fails i e j ↔ r = .error e ∧ j = i := by
  cases r with
  | ok a =>
    constructor
    · intro h
      cases h
    · rintro ⟨⟨⟩, -⟩
  | error e' =>
    constructor
    · intro h
      cases h
      exact ⟨rfl, rfl⟩
    · rintro ⟨⟨⟩, rfl⟩
      rfl

/-- If the first part fails, the whole does. -/
lemma Fails.bind_left {x : Solving α} {f : α → Solving β} {e : Error} (h : x.Fails i e j) :
    (x >>= f).Fails i e j := by
  unfold Fails at h ⊢
  rw [run_bind, h]

/-- If the second part fails after the first has returned, the whole does. -/
lemma Fails.bind_right {x : Solving α} {f : α → Solving β} {a : α} {e : Error} {k : ℕ}
    (hx : x.Returns i a j) (h : (f a).Fails j e k) : (x >>= f).Fails i e k := by
  unfold Returns at hx
  unfold Fails at h ⊢
  rw [run_bind, hx]
  exact h

/-! ## Outcomes that ignore the count -/

/-- The outcome does not depend on how many requests came before. -/
def IgnoresCount (x : Solving α) : Prop := ∀ i j, (x.run.run i).1 = (x.run.run j).1

namespace IgnoresCount

lemma pure (a : α) : IgnoresCount (Pure.pure a : Solving α) := fun _ _ => rfl

lemma throw (e : Error) : IgnoresCount (MonadExcept.throw e : Solving α) := fun _ _ => rfl

lemma ofExcept (r : Except Error α) : IgnoresCount (Solving.ofExcept r) := by
  cases r with
  | ok a => exact pure a
  | error e => exact throw e

lemma bind {x : Solving α} {f : α → Solving β} (hx : IgnoresCount x)
    (hf : ∀ a, IgnoresCount (f a)) : IgnoresCount (x >>= f) := by
  intro i j
  rw [run_bind, run_bind]
  have hij := hx i j
  generalize x.run.run i = first at hij ⊢
  generalize x.run.run j = second at hij ⊢
  obtain ⟨r, k⟩ := first
  obtain ⟨r', l⟩ := second
  obtain rfl : r = r' := hij
  cases r with
  | ok a => exact hf a k l
  | error e => rfl

/-- A request to a pure backend does not depend on the count. -/
lemma request {s : Backend T} (hs : s.Pure) {m n : ℕ} (a : DenseMatrix T m n) (b : Signal T) :
    IgnoresCount (CompressedSensing.request s a b) := by
  intro i j
  show ((Solving.ofExcept (s.solve i a b)).run.run (i + 1)).1
    = ((Solving.ofExcept (s.solve j a b)).run.run (j + 1)).1
  rw [hs i j a b]
  exact ofExcept _ _ _

/-- What is returned after some count is returned after any other. -/
lemma returns {x : Solving α} (hx : IgnoresCount x) {a : α} (h : x.Returns i a j) (i' : ℕ) :
    ∃ j', x.Returns i' a j' := by
  unfold Returns at h ⊢
  refine ⟨(x.run.run i').2, Prod.ext ?_ rfl⟩
  rw [hx i' i, h]

/-- What does not depend on the count returns one value only. -/
lemma eq_of_returns {x : Solving α} (hx : IgnoresCount x) {a a' : α} {i' j' : ℕ}
    (h : x.Returns i a j) (h' : x.Returns i' a' j') : a = a' := by
  unfold Returns at h h'
  have hii' := hx i i'
  rw [h, h'] at hii'
  exact Except.ok.inj hii'

end IgnoresCount

end Solving

/-! ## Refused requests -/

namespace Backend

variable {T : Type} {c : ℕ} {a : SizedMatrix T} {b : Signal T} {e : Error}

open Classical in
/-- A backend that refuses request number `c`, if it is for `a` and `b`, and otherwise answers
like `s`. -/
noncomputable def refusing (s : Backend T) (c : ℕ) (a : SizedMatrix T) (b : Signal T)
    (e : Error) : Backend T where
  name := s.name
  solve earlier {m n} a' b' :=
    if earlier = c ∧ (⟨m, n, a'⟩ : SizedMatrix T) = a ∧ b' = b then .error e
    else s.solve earlier a' b'

/-- The refusing backend refuses the request it was made for. -/
lemma refusing_solve (s : Backend T) :
    (s.refusing c a b e).solve c a.matrix b = .error e := if_pos ⟨rfl, rfl, rfl⟩

/-- Other requests are answered as before. -/
lemma refusing_solve_of_ne (s : Backend T) {earlier m n : ℕ} (h : earlier ≠ c)
    (a' : DenseMatrix T m n) (b' : Signal T) :
    (s.refusing c a b e).solve earlier a' b' = s.solve earlier a' b' := if_neg fun h' => h h'.1

/-- Nothing changes for a request that is refused anyway. -/
lemma refusing_eq_self {s : Backend T} (h : s.solve c a.matrix b = .error e) :
    s.refusing c a b e = s := by
  cases s with
  | mk name solve =>
    unfold refusing
    congr
    funext earlier m n a' b'
    split
    · rename_i heq
      obtain ⟨rfl, rfl, rfl⟩ := heq
      exact h.symm
    · rfl

/-- The two backends give the same answers to the requests with numbers from `i` up to `j`. -/
def AgreesFrom (s s' : Backend T) (i j : ℕ) : Prop :=
  ∀ c, i ≤ c → c < j → ∀ {m n : ℕ} (a : DenseMatrix T m n) (b : Signal T),
    s'.solve c a b = s.solve c a b

/-- Before that request it answers as the backend does. -/
lemma agreesFrom_refusing (s : Backend T) {i j : ℕ} (h : j ≤ c) :
    s.AgreesFrom (s.refusing c a b e) i j :=
  fun _ _ hj _ _ a' b' => s.refusing_solve_of_ne (by omega) a' b'

end Backend

namespace Solving

variable {T α β : Type} {i j : ℕ} {s : Backend T}

/-- From count `i` the computation makes request number `c`, for `a` and `b`: were this request
refused, it would fail there and then with the cause of the refusal, whatever that is. -/
def Asks (f : Backend T → Solving α) (s : Backend T) (i c : ℕ) (a : SizedMatrix T)
    (b : Signal T) : Prop :=
  ∀ e, (f (s.refusing c a b e)).Fails i e (c + 1)

/-- A request that the computation makes and the backend refuses makes it fail. -/
lemma Asks.fails {f : Backend T → Solving α} {c : ℕ} {a : SizedMatrix T} {b : Signal T}
    {e : Error} (h : Asks f s i c a b) (he : s.solve c a.matrix b = .error e) :
    (f s).Fails i e (c + 1) := by
  have hfail := h e
  rwa [Backend.refusing_eq_self he] at hfail

/-- The computation succeeds, and goes the same way with every backend that answers its requests
as `s` does, or it makes a request that `s` refuses. -/
def OnlyRefused (f : Backend T → Solving α) (s : Backend T) : Prop :=
  ∀ i, (∃ a j, i ≤ j ∧ (f s).Returns i a j ∧
      ∀ s', s.AgreesFrom s' i j → (f s').Returns i a j) ∨
    ∃ c a b e, i ≤ c ∧ s.solve c a.matrix b = .error e ∧ Asks f s i c a b

namespace OnlyRefused

lemma pure (a : α) : OnlyRefused (fun _ => (Pure.pure a : Solving α)) s :=
  fun i => .inl ⟨a, i, le_rfl, rfl, fun _ _ => rfl⟩

lemma ofExcept {r : Except Error α} {a : α} (h : r = .ok a) :
    OnlyRefused (fun _ => Solving.ofExcept r) s := by
  rw [h]
  exact pure a

/-- The second computation is looked at only for answers that the first can give. -/
lemma bind {x : Backend T → Solving α} {f : Backend T → α → Solving β} (hx : OnlyRefused x s)
    (hf : ∀ a i j, (x s).Returns i a j → OnlyRefused (fun s' => f s' a) s) :
    OnlyRefused (fun s' => x s' >>= f s') s := by
  intro i
  rcases hx i with ⟨a, k, hik, ha, hsame⟩ | ⟨c, a, b, e, hic, he, hasks⟩
  · rcases hf a i k ha k with ⟨z, j, hkj, hz, hsame'⟩ | ⟨c, a', b, e, hkc, he, hasks⟩
    · refine .inl ⟨z, j, hik.trans hkj, returns_bind.2 ⟨a, k, ha, hz⟩, fun s' hs' => ?_⟩
      refine returns_bind.2 ⟨a, k, hsame s' fun c hi hk => hs' c hi (hk.trans_le hkj), ?_⟩
      exact hsame' s' fun c hk hj => hs' c (hik.trans hk) hj
    · -- the request comes after the first computation, which does not see that it is refused
      refine .inr ⟨c, a', b, e, hik.trans hkc, he, fun e' => ?_⟩
      exact .bind_right (hsame _ (s.agreesFrom_refusing hkc)) (hasks e')
  · exact .inr ⟨c, a, b, e, hic, he, fun e' => (hasks e').bind_left⟩

/-- Both branches of a test that does not look at the backend. -/
lemma ite {c : Backend T → Prop} [∀ s', Decidable (c s')] {f g : Backend T → Solving α}
    (hc : ∀ s', c s' = c s) (hf : c s → OnlyRefused f s) (hg : ¬ c s → OnlyRefused g s) :
    OnlyRefused (fun s' => if c s' then f s' else g s') s := by
  by_cases h : c s
  · rw [funext fun s' => if_pos ((hc s').mpr h)]
    exact hf h
  · rw [funext fun s' => if_neg fun h' => h ((hc s').mp h')]
    exact hg h

/-- A request fails only where it is refused. -/
lemma request {m n : ℕ} (a : DenseMatrix T m n) (b : Signal T) :
    OnlyRefused (fun s' => CompressedSensing.request s' a b) s := by
  intro i
  have hreturns {s' : Backend T} {z : Signal T} (h : s'.solve i a b = .ok z) :
      (CompressedSensing.request s' a b).Returns i z (i + 1) := returns_request.2 ⟨h, rfl⟩
  cases h : s.solve i a b with
  | ok z =>
    refine .inl ⟨z, i + 1, i.le_succ, hreturns h, fun s' hs' => hreturns ?_⟩
    rw [hs' i le_rfl i.lt_succ_self a b, h]
  | error e =>
    refine .inr ⟨i, ⟨m, n, a⟩, b, e, le_rfl, h, fun e' => ?_⟩
    show (Solving.ofExcept ((s.refusing i ⟨m, n, a⟩ b e').solve i a b)).Fails (i + 1) e' (i + 1)
    rw [fails_ofExcept]
    exact ⟨Backend.refusing_solve s, rfl⟩

/-- The failures are the refusals of requests that are made. -/
lemma fails_iff {f : Backend T → Solving α} (h : OnlyRefused f s) {e : Error} :
    (∃ j, (f s).Fails i e j) ↔
      ∃ c a b, i ≤ c ∧ Asks f s i c a b ∧ s.solve c a.matrix b = .error e := by
  constructor
  · rintro ⟨j, hfail⟩
    rcases h i with ⟨a, k, -, ha, -⟩ | ⟨c, a, b, e', hic, he, hasks⟩
    · exact absurd hfail ha.not_fails
    · obtain ⟨rfl, -⟩ := hfail.inj (hasks.fails he)
      exact ⟨c, a, b, hic, hasks, he⟩
  · rintro ⟨c, a, b, -, hasks, he⟩
    exact ⟨c + 1, hasks.fails he⟩

end OnlyRefused

end Solving
end CompressedSensing
