import Mathlib.Data.Int.ModEq

/-!
Conversions between unsigned and signed machine integers.

`narrow w n` is an unsigned value stored into a signed integer of `w` bits, and
`widen v i` a signed value taken as an unsigned integer of `v` bits. A value that
goes through a narrower signed integer keeps its low bits only
(`widen_narrow_eq_iff`): it comes back unchanged exactly when it is close enough
to zero or to the top (`Survives`).
-/

namespace ThunderChat.Conversion

/-- An unsigned value stored into a signed integer of `w` bits. -/
def narrow (w n : Nat) : Int := Int.bmod n (2 ^ w)

/-- A signed value taken as an unsigned integer of `v` bits. -/
def widen (v : Nat) (i : Int) : Nat := (i % 2 ^ v).toNat

/-- The values of `v` bits that a signed integer of `w` bits can stand for. -/
def Survives (w v u : Nat) : Prop := u < 2 ^ (w - 1) ∨ 2 ^ v - 2 ^ (w - 1) ≤ u

instance (w v u : Nat) : Decidable (Survives w v u) := by unfold Survives; infer_instance

variable {w v u n : Nat}

/-- The value that comes back, from the low bits. -/
theorem widen_narrow (hw : 1 ≤ w) (hv : w ≤ v) : widen v (narrow w n)
    = if n % 2 ^ w < 2 ^ (w - 1) then n % 2 ^ w else 2 ^ v - 2 ^ w + n % 2 ^ w := by
  have hhalf : 2 ^ (w - 1) * 2 = 2 ^ w := Nat.two_pow_pred_mul_two hw
  have hle : 2 ^ w ≤ 2 ^ v := Nat.pow_le_pow_right Nat.two_pos hv
  have hlow : n % 2 ^ w < 2 ^ w := Nat.mod_lt _ (Nat.two_pow_pos w)
  have hcast : ((n : Int) % ((2 ^ w : Nat) : Int)) = ((n % 2 ^ w : Nat) : Int) := by norm_cast
  have htop : (2 : Int) ^ v = ((2 ^ v : Nat) : Int) := by norm_cast
  unfold widen narrow
  rw [Int.bmod_def, hcast, htop]
  split
  · next h =>
      have hpositive : n % 2 ^ w < 2 ^ (w - 1) := by omega
      rw [if_pos hpositive]
      norm_cast
      exact Nat.mod_eq_of_lt (by omega)
  · next h =>
      have hnegative : ¬ n % 2 ^ w < 2 ^ (w - 1) := by omega
      rw [if_neg hnegative]
      -- A negative value is the one that lies `2 ^ v` above it.
      have hshift : ((n % 2 ^ w : Nat) : Int) - ((2 ^ w : Nat) : Int)
          = ((2 ^ v - 2 ^ w + n % 2 ^ w : Nat) : Int) - ((2 ^ v : Nat) : Int) := by omega
      rw [hshift, Int.sub_emod_right]
      norm_cast
      exact Nat.mod_eq_of_lt (by omega)

/-- The low bits of the values near the top. -/
theorem mod_of_top (hv : w ≤ v) (hu : u < 2 ^ v) (h : 2 ^ v - 2 ^ w ≤ u) :
    u % 2 ^ w = u - (2 ^ v - 2 ^ w) := by
  have hle : 2 ^ w ≤ 2 ^ v := Nat.pow_le_pow_right Nat.two_pos hv
  obtain ⟨k, hk⟩ : 2 ^ w ∣ 2 ^ v - 2 ^ w := Nat.dvd_sub (Nat.pow_dvd_pow 2 hv) (Nat.dvd_refl _)
  have hsplit : u = 2 ^ w * k + (u - (2 ^ v - 2 ^ w)) := by omega
  rw [hsplit, Nat.mul_add_mod, ← hsplit]
  exact Nat.mod_eq_of_lt (by omega)

/-- **What a round through a narrower signed integer can give**: the values that
survive it, each from every value with the same low bits. -/
theorem widen_narrow_eq_iff (hw : 1 ≤ w) (hv : w ≤ v) (hu : u < 2 ^ v) :
    widen v (narrow w n) = u ↔ Survives w v u ∧ n ≡ u [MOD 2 ^ w] := by
  have hhalf : 2 ^ (w - 1) * 2 = 2 ^ w := Nat.two_pow_pred_mul_two hw
  have hle : 2 ^ w ≤ 2 ^ v := Nat.pow_le_pow_right Nat.two_pos hv
  have hlow : n % 2 ^ w < 2 ^ w := Nat.mod_lt _ (Nat.two_pow_pos w)
  have hmodLow : u < 2 ^ (w - 1) → u % 2 ^ w = u := fun h => Nat.mod_eq_of_lt (by omega)
  have hmodTop : 2 ^ v - 2 ^ (w - 1) ≤ u → u % 2 ^ w = u - (2 ^ v - 2 ^ w) :=
    fun h => mod_of_top hv hu (by omega)
  rw [widen_narrow hw hv, Nat.ModEq]
  unfold Survives
  constructor
  · intro h
    split at h
    · next hlt =>
        have hsmall : u < 2 ^ (w - 1) := by omega
        exact ⟨.inl hsmall, by rw [hmodLow hsmall, h]⟩
    · next hge =>
        have hlarge : 2 ^ v - 2 ^ (w - 1) ≤ u := by omega
        exact ⟨.inr hlarge, by rw [hmodTop hlarge]; omega⟩
  · rintro ⟨hsmall | hlarge, hmod⟩
    · rw [hmod, hmodLow hsmall, if_pos hsmall]
    · rw [hmod, hmodTop hlarge, if_neg (by omega)]
      omega

end ThunderChat.Conversion
