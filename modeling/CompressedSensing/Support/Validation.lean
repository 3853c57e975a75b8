import CompressedSensing.Error
/-!
# Valid supports

A support of a signal of length `n` is a list of distinct indices below `n`. `Support.validate`
reports the first entry that breaks this; an index out of range is reported as such even if it
also occurs twice.
-/

namespace CompressedSensing
namespace Support

/-- Checks the entries in order, given the ones that came before. -/
def validateFrom (n : Nat) (seen : List Nat) : List Nat → Except Error Unit
  | [] => .ok ()
  | j :: rest =>
    if n ≤ j then .error (.supportOutOfRange j n)
    else if j ∈ seen then .error (.duplicateSupport j)
    else validateFrom n (j :: seen) rest

/-- Succeeds on distinct indices below `n`. -/
def validate (support : Array Nat) (n : Nat) : Except Error Unit :=
  validateFrom n [] support.toList

/-- What `validate` accepts. -/
structure Valid (n : Nat) (support : Array Nat) : Prop where
  nodup : support.toList.Nodup
  lt : ∀ j ∈ support.toList, j < n

/-- Entries that come later are distinct from those before. -/
theorem validateFrom_eq_ok_iff (n : Nat) (seen l : List Nat) :
    validateFrom n seen l = .ok () ↔
      l.Nodup ∧ (∀ j ∈ l, j < n) ∧ ∀ j ∈ l, j ∉ seen := by
  induction l generalizing seen with
  | nil => simp [validateFrom]
  | cons j rest ih =>
    unfold validateFrom
    split
    · rename_i h
      simp only [reduceCtorEq, false_iff]
      rintro ⟨-, hlt, -⟩
      have := hlt j (by simp)
      omega
    · split
      · rename_i h
        simp only [reduceCtorEq, false_iff]
        rintro ⟨-, -, hseen⟩
        exact hseen j (by simp) h
      · rename_i hj hs
        rw [ih]
        simp only [List.mem_cons, not_or, List.nodup_cons, forall_eq_or_imp]
        constructor
        · rintro ⟨hnd, hlt, hns⟩
          refine ⟨⟨fun hmem => (hns j hmem).1 rfl, hnd⟩, ⟨by omega, hlt⟩, hs, ?_⟩
          exact fun a ha => (hns a ha).2
        · rintro ⟨⟨hj', hnd⟩, ⟨_, hlt⟩, _, hns⟩
          exact ⟨hnd, hlt, fun a ha => ⟨fun h => hj' (h ▸ ha), hns a ha⟩⟩

/-- The check passes exactly the valid supports. -/
theorem validate_eq_ok_iff (support : Array Nat) (n : Nat) :
    validate support n = .ok () ↔ Valid n support := by
  rw [validate, validateFrom_eq_ok_iff]
  exact ⟨fun ⟨h, h', _⟩ => ⟨h, h'⟩, fun ⟨h, h'⟩ => ⟨h, h', by simp⟩⟩

end Support
end CompressedSensing
