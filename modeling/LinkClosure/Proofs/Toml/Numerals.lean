import LinkClosure.Proofs.Text.Legible
import LinkClosure.Toml.Scalar
import Mathlib.Data.List.Induction

/-!
# Decimal numerals

The number of a row of digits is the one that its digits write, whatever zeros
stand in front. Every row of digits is of this form.
-/

set_option autoImplicit false

namespace LinkClosure.Toml

variable {ds : List Char}

theorem exists_digitChar {c : Char} (h : c.isDigit = true) : ∃ k < 10, c = Nat.digitChar k := by
  have hbounds : 48 ≤ c.toNat ∧ c.toNat ≤ 57 := by
    simpa [Char.isDigit, UInt32.le_iff_toNat_le] using h
  refine ⟨c.toNat - 48, by omega, ?_⟩
  apply Char.toNat_inj.1
  rw [Nat.toNat_digitChar_of_lt_ten (by omega)]
  omega

theorem digitValue_digitChar {k : Nat} (hk : k < 10) : digitValue (Nat.digitChar k) = k := by
  have hall : ∀ k < 10, digitValue (Nat.digitChar k) = k := by decide
  exact hall k hk

theorem natOfDigits_concat (base : Nat) (ds : List Char) (d : Char) :
    natOfDigits base (ds ++ [d]) = natOfDigits base ds * base + digitValue d := by
  simp [natOfDigits]

theorem natOfDigits_toDigits (n : Nat) : natOfDigits 10 (Nat.toDigits 10 n) = n := by
  induction n using Nat.strongRecOn with
  | ind n ih =>
    rw [Nat.toDigits_eq_if (by decide)]
    split_ifs with hn
    · simp [natOfDigits, digitValue_digitChar hn]
    · rw [natOfDigits_concat, ih (n / 10) (by omega), digitValue_digitChar (by omega)]
      omega

theorem natOfDigits_zeros_append (zeros : Nat) (ds : List Char) :
    natOfDigits 10 (List.replicate zeros '0' ++ ds) = natOfDigits 10 ds := by
  induction zeros with
  | zero => rfl
  | succ zeros ih =>
    rw [List.replicate_succ, List.cons_append, ← ih]
    rfl

theorem exists_zeros_append (hne : ds ≠ []) (hds : ∀ c ∈ ds, c.isDigit = true) :
    ∃ zeros, ds = List.replicate zeros '0' ++ Nat.toDigits 10 (natOfDigits 10 ds) := by
  induction ds using List.reverseRecOn with
  | nil => exact absurd rfl hne
  | append_singleton ds d ih =>
    obtain ⟨k, hk, rfl⟩ := exists_digitChar (hds d (by simp))
    rw [natOfDigits_concat, digitValue_digitChar hk]
    by_cases hnil : ds = []
    · refine ⟨0, ?_⟩
      simp [hnil, natOfDigits, Nat.toDigits_of_lt_base hk]
    obtain ⟨zeros, hzeros⟩ := ih hnil fun c hc => hds c (by simp [hc])
    rcases Nat.eq_zero_or_pos (natOfDigits 10 ds) with hzero | hpos
    · refine ⟨zeros + 1, ?_⟩
      rw [hzero, Nat.toDigits_zero, ← List.replicate_succ'] at hzeros
      rw [hzero, Nat.zero_mul, Nat.zero_add, Nat.toDigits_of_lt_base hk, ← hzeros]
    · refine ⟨zeros, ?_⟩
      rw [Nat.mul_comm, ← Nat.toDigits_append_toDigits (by decide) hpos hk,
        Nat.toDigits_of_lt_base hk, ← List.append_assoc, ← hzeros]

/-- The rows of digits for a number: its own digits, with any zeros in front. -/
theorem numeral_iff {n : Nat} :
    ds ≠ [] ∧ (∀ c ∈ ds, c.isDigit = true) ∧ natOfDigits 10 ds = n ↔
      ∃ zeros, ds = List.replicate zeros '0' ++ Nat.toDigits 10 n := by
  constructor
  · rintro ⟨hne, hds, rfl⟩
    exact exists_zeros_append hne hds
  · rintro ⟨zeros, rfl⟩
    refine ⟨?_, ?_, ?_⟩
    · exact List.append_ne_nil_of_right_ne_nil _ Nat.toDigits_ne_nil
    · intro c hc
      rcases List.mem_append.1 hc with hc | hc
      · rw [List.eq_of_mem_replicate hc]
        rfl
      · exact Nat.isDigit_of_mem_toDigits (by decide) (by decide) hc
    · rw [natOfDigits_zeros_append, natOfDigits_toDigits]

end LinkClosure.Toml
