import Mathlib.Tactic

/-! Conversions between mathematical integers and machine words: 32 bits in the
two readings a C program for a 32-bit target gives them, and 16 bits. All are irreducible:
unfolding arithmetic on these literals is never what unification needs. -/
namespace Machine

@[irreducible] def uint32 (x : ℤ) : ℕ := (x % 0x100000000).toNat

@[irreducible] def int32 (x : ℤ) : ℤ := (x + 0x80000000) % 0x100000000 - 0x80000000

@[irreducible] def uint16 (x : ℤ) : ℕ := (x % 0x10000).toNat

theorem uint32_lt (x : ℤ) : uint32 x < 2 ^ 32 := by
  unfold uint32
  omega

theorem uint32_of_bounds {x : ℤ} (h0 : 0 ≤ x) (h1 : x < 2 ^ 32) : (uint32 x : ℤ) = x := by
  unfold uint32
  omega

theorem int32_of_bounds {x : ℤ} (h0 : -2 ^ 31 ≤ x) (h1 : x < 2 ^ 31) : int32 x = x := by
  unfold int32
  omega

theorem uint16_lt (x : ℤ) : uint16 x < 2 ^ 16 := by
  unfold uint16
  omega

theorem uint16_of_lt {n : ℕ} (h : n < 2 ^ 16) : uint16 n = n := by
  unfold uint16
  omega

theorem uint16_add_uint16 (a b : ℤ) : uint16 (uint16 a + b) = uint16 (a + b) := by
  unfold uint16
  omega

theorem int32_int32_add (x y : ℤ) : int32 (int32 x + y) = int32 (x + y) := by
  unfold int32
  omega

theorem forall_byte {P : UInt8 → Prop} (h : ∀ n : Fin 256, P (UInt8.ofFin n)) (b : UInt8) : P b := by
  have hbyte := h b.toFin
  rwa [UInt8.ofFin_toFin] at hbyte

end Machine
