import Mathlib
import CompressedSensing.Proofs.Operator.Overwriting
import CompressedSensing.Proofs.Signal.Restriction
/-!
# What the check of a support guarantees

A support is accepted just if values can be written at its indices and read there again. Out of
range there is nothing to write to, and at an index that occurs twice the later value replaces the
earlier one.

What is reported is the fault of the first entry that has one. The first fault is unambiguous: an
index that is out of range and occurs twice was out of range when it occurred first. A table with
one mark per index serves the check as well as the list of the entries that came before.

Selections of rows go through the same check, and reading the rows undoes writing them.
-/

namespace CompressedSensing
namespace Support

variable {n : ℕ} {s : Array ℕ} {e : Error}

/-! ## The first fault -/

/-- What is wrong with the entry at position `i`: it is out of range, or it repeats an earlier
one. -/
inductive FaultAt (n : ℕ) (s : Array ℕ) (i : ℕ) : Error → Prop where
  | outOfRange (hi : i < s.size) (h : n ≤ s[i]) : FaultAt n s i (.supportOutOfRange s[i] n)
  | repeated (hi : i < s.size) (l : ℕ) (hl : l < i) (h : s[l] = s[i]) :
    FaultAt n s i (.duplicateSupport s[i])

/-- There is a fault, and no entry before it has one. -/
def FirstFault (n : ℕ) (s : Array ℕ) (e : Error) : Prop :=
  ∃ i, FaultAt n s i e ∧ ∀ l < i, ∀ e', ¬ FaultAt n s l e'

/-- A support with a fault is not valid. -/
lemma FirstFault.not_valid (h : FirstFault n s e) : ¬ Valid n s := by
  obtain ⟨i, hi, -⟩ := h
  intro hs
  cases hi with
  | outOfRange hi h => exact absurd (hs.getElem_lt hi) (not_lt.2 h)
  | repeated hi l hl h => exact hl.ne (hs.eq_of_getElem_eq (hl.trans hi) hi h)

/-- At the first fault there is only one of the two. -/
lemma FaultAt.unique {i : ℕ} {e' : Error} (h : FaultAt n s i e) (h' : FaultAt n s i e')
    (hfirst : ∀ l < i, ∀ e', ¬ FaultAt n s l e') : e = e' := by
  -- the entry that an index out of range repeats would have been a fault itself
  have hrange (hi : i < s.size) (hn : n ≤ s[i]) (l : ℕ) (hl : l < i) : s[l] ≠ s[i] :=
    fun heq => hfirst l hl _ (.outOfRange (hl.trans hi) (hn.trans_eq heq.symm))
  cases h with
  | outOfRange hi hn =>
    cases h' with
    | outOfRange => rfl
    | repeated _ l hl heq => exact absurd heq (hrange hi hn l hl)
  | repeated hi l hl heq =>
    cases h' with
    | outOfRange _ hn => exact absurd heq (hrange hi hn l hl)
    | repeated => rfl

/-- A support has at most one first fault. -/
lemma FirstFault.unique {e' : Error} (h : FirstFault n s e) (h' : FirstFault n s e') : e = e' := by
  obtain ⟨i, hi, hfirst⟩ := h
  obtain ⟨i', hi', hfirst'⟩ := h'
  rcases lt_trichotomy i i' with hlt | rfl | hlt
  · exact absurd hi (hfirst' i hlt e)
  · exact hi.unique hi' hfirst
  · exact absurd hi' (hfirst i' hlt e')

/-- A check that fails stops behind entries that it accepts. -/
lemma validateFrom_eq_error {seen l : List ℕ} (h : validateFrom n seen l = .error e) :
    ∃ p j r, l = p ++ j :: r ∧ validateFrom n seen p = .ok () ∧
      (n ≤ j ∧ e = .supportOutOfRange j n ∨ (j ∈ seen ∨ j ∈ p) ∧ e = .duplicateSupport j) := by
  induction l generalizing seen with
  | nil => cases h
  | cons k rest ih =>
    rw [validateFrom] at h
    split at h
    · rename_i hk
      exact ⟨[], k, rest, rfl, rfl, .inl ⟨hk, (Except.error.inj h).symm⟩⟩
    · split at h
      · rename_i hseen
        exact ⟨[], k, rest, rfl, rfl, .inr ⟨.inl hseen, (Except.error.inj h).symm⟩⟩
      · rename_i hk hseen
        obtain ⟨p, j, r, rfl, hp, hfault⟩ := ih h
        refine ⟨k :: p, j, r, rfl, ?_, hfault.imp_right (And.imp_left ?_)⟩
        · rw [validateFrom, if_neg hk, if_neg hseen, hp]
        · simp only [List.mem_cons]
          tauto

/-- The error of the check is the first fault of the support. -/
lemma firstFault_of_validate_eq_error (h : validate s n = .error e) : FirstFault n s e := by
  obtain ⟨p, j, r, hs, hp, hfault⟩ := validateFrom_eq_error h
  obtain ⟨hnodup, hlt, -⟩ := (validateFrom_eq_ok_iff n [] p).1 hp
  have hsize : p.length < s.size := by
    rw [← Array.length_toList, hs]
    simp
  have hbefore (l : ℕ) (hl : l < p.length) : s[l] = p[l] := by
    rw [← Array.getElem_toList, List.getElem_of_eq hs, List.getElem_append_left hl]
  have hj : s[p.length] = j := by
    rw [← Array.getElem_toList, List.getElem_of_eq hs, List.getElem_append_right le_rfl]
    simp
  refine ⟨p.length, ?_, fun l hl e' he' => ?_⟩
  · -- nothing was seen before the start, so a repeated entry repeats one of the prefix
    rcases hfault with ⟨hn, rfl⟩ | ⟨hmem, rfl⟩
    · rw [← hj] at hn ⊢
      exact .outOfRange hsize hn
    · obtain ⟨l, hl, heq⟩ := List.mem_iff_getElem.1 (hmem.resolve_left List.not_mem_nil)
      rw [← hj]
      exact .repeated hsize l hl ((hbefore l hl).trans (heq.trans hj.symm))
  · cases he' with
    | outOfRange hi hn =>
      rw [hbefore l hl] at hn
      exact absurd (hlt _ (List.getElem_mem hl)) (not_lt.2 hn)
    | repeated hi l' hl' heq =>
      rw [hbefore l hl, hbefore l' (hl'.trans hl)] at heq
      exact hl'.ne (hnodup.getElem_inj_iff.1 heq)

/-- The check reports the first fault and nothing else. -/
lemma validate_eq_error_iff : validate s n = .error e ↔ FirstFault n s e := by
  refine ⟨firstFault_of_validate_eq_error, fun h => ?_⟩
  cases hv : validate s n with
  | ok u => exact absurd ((validate_eq_ok_iff s n).1 hv) h.not_valid
  | error e' => rw [(firstFault_of_validate_eq_error hv).unique h]

/-! ## A table of marks -/

/-- The check with one mark per index in range, set where the index has occurred. -/
def validateMarked (marks : Vector Bool n) : List ℕ → Except Error Unit
  | [] => .ok ()
  | j :: rest =>
    if h : j < n then
      if marks[j] then .error (.duplicateSupport j) else validateMarked (marks.set j true) rest
    else .error (.supportOutOfRange j n)

/-- The marks stand for the entries that came before. -/
lemma validateMarked_eq (l : List ℕ) {marks : Vector Bool n} {seen : List ℕ}
    (hmarks : ∀ (j : ℕ) (_ : j < n), marks[j] = true ↔ j ∈ seen) :
    validateMarked marks l = validateFrom n seen l := by
  induction l generalizing marks seen with
  | nil => rfl
  | cons j rest ih =>
    rw [validateMarked, validateFrom]
    by_cases hj : j < n
    · rw [dif_pos hj, if_neg (not_le.2 hj)]
      refine if_congr (hmarks j hj) rfl (ih fun t ht => ?_)
      rw [Vector.getElem_set, List.mem_cons, ← hmarks t ht]
      by_cases htj : j = t
      · simp [htj]
      · simp [htj, Ne.symm htj]
    · rw [dif_neg hj, if_pos (not_lt.1 hj)]

/-! ## Writing and reading -/

section

variable {T R : Type} [Scalar T R]

/-- What is written at the indices of a valid support is read there again. -/
lemma Valid.gather_embed (hs : Valid n s) {v : Signal T} (hv : v.size = s.size) :
    ∃ x, Signal.embed n s v = .ok x ∧ Signal.gather x s = .ok v := by
  obtain ⟨x, hx, hsize⟩ := Signal.embed_ok hs hv
  refine ⟨x, hx, ?_⟩
  rw [Signal.gather_eq (hsize ▸ hs), ← Signal.eq_valuesAt_of_embed hs hv hx]

/-- What is read at the indices is given by the indices. -/
lemma getElem_of_gather {x v : Signal T} (h : Signal.gather x s = .ok v) {i : ℕ}
    (hi : i < v.size) (hs : i < s.size) : v[i] = x.getD s[i] 0 := by
  unfold Signal.gather at h
  split at h
  · cases h
    exact Array.getElem_map _ _
  · cases h

/-- An embedding succeeds only on indices in range. -/
lemma lt_of_embed {v x : Signal T} (h : Signal.embed n s v = .ok x) : ∀ j ∈ s, j < n := by
  unfold Signal.embed at h
  split at h
  · rename_i hbounds
    intro j hj
    exact of_decide_eq_true (Array.all_eq_true'.1 hbounds.2 j hj)
  · cases h

/-- One value for the entry at `i` and another one elsewhere tell its index from all others. -/
lemma valid_of_gather_embed [Nontrivial T] (h : ∀ v : Signal T, v.size = s.size →
    ∃ x, Signal.embed n s v = .ok x ∧ Signal.gather x s = .ok v) : Valid n s := by
  obtain ⟨p, q, hpq⟩ := exists_pair_ne T
  constructor
  · refine List.pairwise_iff_getElem.2 fun i i' hi hi' hlt heq => hpq ?_
    rw [Array.length_toList] at hi hi'
    rw [Array.getElem_toList, Array.getElem_toList] at heq
    obtain ⟨v, hsize, hv⟩ : ∃ v : Signal T, v.size = s.size ∧
        ∀ (l : ℕ) (_ : l < v.size), v[l] = if l = i then p else q :=
      ⟨Array.ofFn fun l : Fin s.size => if l.val = i then p else q, Array.size_ofFn,
        fun l hl => Array.getElem_ofFn hl⟩
    obtain ⟨x, -, hread⟩ := h v hsize
    have hvi : i < v.size := hi.trans_eq hsize.symm
    have hvi' : i' < v.size := hi'.trans_eq hsize.symm
    calc p = v[i] := by rw [hv i hvi, if_pos rfl]
      _ = x.getD s[i] 0 := getElem_of_gather hread hvi hi
      _ = x.getD s[i'] 0 := by rw [heq]
      _ = v[i'] := (getElem_of_gather hread hvi' hi').symm
      _ = q := by rw [hv i' hvi', if_neg hlt.ne']
  · intro j hj
    obtain ⟨x, hx, -⟩ := h (Array.replicate s.size 0) Array.size_replicate
    exact lt_of_embed hx j (Array.mem_toList_iff.1 hj)

end

end Support

/-! ## Selections of rows -/

namespace RowSelection

variable {T R : Type} [Scalar T R] {n : ℕ} {rows : Array ℕ}

/-- The constructor of selections is the check, followed by nothing that can fail. -/
lemma map_ofRows? (rows : Array ℕ) (n : ℕ) :
    (ofRows? rows n).map (fun _ => ()) = Support.validate rows n := by
  unfold ofRows?
  split
  · rename_i h
    exact h.symm
  · rename_i e h
    exact h.symm

/-- A row selection that is built keeps its rows and its length. -/
lemma eq_of_ofRows? {r : RowSelection} (h : ofRows? rows n = .ok r) :
    r.rows = rows ∧ r.length = n := by
  unfold ofRows? at h
  split at h
  · cases h
    exact ⟨rfl, rfl⟩
  · cases h

/-- The adjoint embeds at the rows. -/
lemma trans_eq_embed (r : RowSelection) {y : Signal T} (hy : y.size = r.rows.size)
    (x : Vector T r.length) :
    ∃ w : Vector T r.length, (r.toOperator : Operator T).trans y x = .ok w ∧
      Signal.embed r.length r.rows y = .ok w.toArray :=
  ⟨_, if_pos (r.valid.inBounds_take _), if_pos ⟨hy.symm, r.valid.inBounds⟩⟩

/-- The operator gathers at the rows. -/
lemma times_eq_gather (r : RowSelection) {x : Signal T} (hx : x.size = r.length)
    (y : Vector T r.rows.size) :
    ∃ v : Vector T r.rows.size, (r.toOperator : Operator T).times x y = .ok v ∧
      Signal.gather x r.rows = .ok v.toArray := by
  refine ⟨_, (if_pos (hx ▸ r.valid.inBounds_take _)).trans
    (congrArg Except.ok (Signal.read_eq x r.rows y)), ?_⟩
  rw [Signal.gather_eq (hx ▸ r.valid)]
  refine congrArg Except.ok (Array.ext (by simp) fun i hi hi' => ?_)
  simp [Signal.valuesAt]

/-- Reading the rows undoes writing them, whatever the buffers held. -/
lemma times_trans (r : RowSelection) {y : Signal T} (hy : y.size = r.rows.size)
    (x : Vector T r.length) (z : Vector T r.rows.size) :
    ∃ w v, (r.toOperator : Operator T).trans y x = .ok w ∧
      (r.toOperator : Operator T).times w.toArray z = .ok v ∧ v.toArray = y := by
  obtain ⟨w, hw, hembed⟩ := r.trans_eq_embed hy x
  obtain ⟨v, hv, hgather⟩ := r.times_eq_gather w.size_toArray z
  obtain ⟨x', hx', hread⟩ := r.valid.gather_embed hy
  rw [hembed] at hx'
  cases hx'
  exact ⟨w, v, hw, hv, Except.ok.inj (hgather.symm.trans hread)⟩

end RowSelection

namespace Support

section

variable {T R : Type} [Scalar T R] [Nontrivial T]

/-- The check accepts just the lists of distinct indices below `n`, and these are the lists at which
values can be written and read again. Otherwise it reports the first fault, and a table of marks
finds the same. Selections of rows accept and reject the same lists for the same reasons, and for
those they accept reading undoes writing. -/
theorem validate_accepts_iff (s : Array ℕ) (n : ℕ) :
    (validate s n = .ok () ↔ s.toList.Nodup ∧ ∀ j ∈ s, j < n) ∧
    (validate s n = .ok () ↔ ∀ v : Signal T, v.size = s.size →
      ∃ x, Signal.embed n s v = .ok x ∧ Signal.gather x s = .ok v) ∧
    (∀ e, validate s n = .error e ↔ FirstFault n s e) ∧
    validateMarked (Vector.replicate n false) s.toList = validate s n ∧
    (RowSelection.ofRows? s n).map (fun _ => ()) = validate s n ∧
    ∀ r, RowSelection.ofRows? s n = .ok r → r.rows = s ∧ r.length = n ∧
      ∀ (y : Signal T) (x : Vector T r.length) (z : Vector T r.rows.size),
        y.size = r.rows.size → ∃ w v, r.toOperator.trans y x = .ok w ∧
          r.toOperator.times w.toArray z = .ok v ∧ v.toArray = y := by
  refine ⟨?_, ?_, fun e => validate_eq_error_iff, validateMarked_eq s.toList (by simp),
    RowSelection.map_ofRows? s n, fun r hr => ?_⟩
  · rw [validate_eq_ok_iff]
    exact ⟨fun h => ⟨h.nodup, fun j hj => h.lt j hj.val⟩,
      fun h => ⟨h.1, fun j hj => h.2 j (Array.mem_toList_iff.1 hj)⟩⟩
  · rw [validate_eq_ok_iff]
    exact ⟨fun hs _ hv => hs.gather_embed hv, valid_of_gather_embed⟩
  · obtain ⟨hrows, hlength⟩ := RowSelection.eq_of_ofRows? hr
    exact ⟨hrows, hlength, fun y x z hy => r.times_trans hy x z⟩

end

instance nontrivialFloat : Nontrivial Float := ⟨0, 1, by decide⟩

/-- A value that is not a number is read back too. The index 2 is repeated before 7 is out of
range. -/
theorem validate_accepts_iff_lists :
    validate #[3, 0] 4 = .ok () ∧
    (∃ x, Signal.embed 4 #[3, 0] (#[0 / 0, -1] : Signal Float) = .ok x ∧
      Signal.gather x #[3, 0] = .ok #[0 / 0, -1]) ∧
    (∃ (r : RowSelection) (w : Vector Float r.length) (v : Vector Float r.rows.size),
      RowSelection.ofRows? #[3, 0] 4 = .ok r ∧
      r.toOperator.trans #[0 / 0, -1] (Vector.replicate r.length 1) = .ok w ∧
      r.toOperator.times w.toArray (Vector.replicate r.rows.size 1) = .ok v ∧
      v.toArray = #[0 / 0, -1]) ∧
    FirstFault 4 #[2, 1, 2, 7] (.duplicateSupport 2) ∧
    (RowSelection.ofRows? #[2, 1, 2, 7] 4).map (fun _ => ()) = .error (.duplicateSupport 2) ∧
    ∃ v : Signal Float, v.size = 4 ∧ ¬ ∃ x, Signal.embed 4 #[2, 1, 2, 7] v = .ok x ∧
      Signal.gather x #[2, 1, 2, 7] = .ok v := by
  obtain ⟨-, hwrite, -, -, -, hrows⟩ := validate_accepts_iff (T := Float) #[3, 0] 4
  obtain ⟨-, hwrite', hfault, -, hmap, -⟩ := validate_accepts_iff (T := Float) #[2, 1, 2, 7] 4
  have hok : validate #[3, 0] 4 = .ok () := rfl
  have herror : validate #[2, 1, 2, 7] 4 = .error (.duplicateSupport 2) := rfl
  let r : RowSelection := ⟨#[3, 0], 4, ⟨by decide, by decide⟩⟩
  have hr : RowSelection.ofRows? #[3, 0] 4 = .ok r := rfl
  obtain ⟨-, -, hread⟩ := hrows r hr
  obtain ⟨w, v, hw, hv, hy⟩ := hread #[0 / 0, -1] (Vector.replicate _ 1) (Vector.replicate _ 1) rfl
  refine ⟨hok, hwrite.1 hok _ rfl, ⟨r, w, v, hr, hw, hv, hy⟩, (hfault _).1 herror,
    hmap.trans herror, ?_⟩
  by_contra hall
  push Not at hall
  rw [hwrite'.2 fun v hv => hall v hv] at herror
  cases herror

end Support
end CompressedSensing
