import Mathlib.Algebra.Group.Nat.Defs

/-! Fixed-width natural numbers as bytes, most significant byte first. -/

namespace BigEndian

/-- The `w` low bytes of `n`. -/
def encode : ℕ → ℕ → List UInt8
  | 0, _ => []
  | w + 1, n => encode w (n / 256) ++ [UInt8.ofNat (n % 256)]

def decode (bs : List UInt8) : ℕ := bs.foldl (fun n b => n * 256 + b.toNat) 0

@[simp] theorem encode_length (w n : ℕ) : (encode w n).length = w := by
  induction w generalizing n with
  | zero => rfl
  | succ w ih => rw [encode, List.length_append, ih, List.length_singleton]

theorem decode_append_singleton (bs : List UInt8) (b : UInt8) :
    decode (bs ++ [b]) = decode bs * 256 + b.toNat := by
  simp [decode, List.foldl_append]

theorem decode_encode {w n : ℕ} (h : n < 256 ^ w) : decode (encode w n) = n := by
  induction w generalizing n with
  | zero =>
    rw [Nat.pow_zero] at h
    rw [encode, show n = 0 by omega]
    rfl
  | succ w ih =>
    have hdiv : n / 256 < 256 ^ w := by
      rw [Nat.div_lt_iff_lt_mul (by omega), ← Nat.pow_succ]
      exact h
    have hbyte : (UInt8.ofNat (n % 256)).toNat = n % 256 := by
      rw [UInt8.toNat_ofNat']
      exact Nat.mod_eq_of_lt (Nat.mod_lt _ (by decide))
    rw [encode, decode_append_singleton, ih hdiv, hbyte, Nat.mul_comm]
    exact Nat.div_add_mod n 256

end BigEndian
