import Mathlib.Data.BitVec
import Mathlib.Data.Fintype.EquivFin
import Mathlib.Data.Nat.Count
import Mathlib.Data.Set.Card

/-!
# Mixing the bits of an integer

Integer hash functions are made of steps that lose nothing: adding a shifted copy,
multiplying by an odd number, and a right shift that is xored in. Each is injective on
`w`-bit numbers (`shiftLeft_add_injective`, `mul_injective`, `xorShift_injective`), so a
sequence of them hits every number once, and as many inputs have a property of the
output as there are numbers that have it (`ncard_of_injective`). What is kept of the
output then decides how many inputs share a value (`count_mod`).
-/

namespace Mixing

variable {w : ℕ}

/-- `x ^= x >> k`: the upper bits are kept, and the others follow from those above them.
By induction from the uppermost bit. -/
theorem xorShift_injective {k : ℕ} (hk : 0 < k) :
    Function.Injective fun x : BitVec w => x ^^^ (x >>> k) := by
  intro x y h
  have hbit : ∀ i, (x.getLsbD i ^^ x.getLsbD (k + i)) = (y.getLsbD i ^^ y.getLsbD (k + i)) := by
    intro i
    simpa using congrArg (BitVec.getLsbD · i) h
  -- from the top bit down
  have hsame : ∀ d i, w ≤ i + d → x.getLsbD i = y.getLsbD i := by
    intro d
    induction d with
    | zero =>
      intro i hi
      rw [BitVec.getLsbD_of_ge x i hi, BitVec.getLsbD_of_ge y i hi]
    | succ d ih =>
      intro i hi
      have habove : x.getLsbD (k + i) = y.getLsbD (k + i) := ih (k + i) (by omega)
      have hi' := hbit i
      rw [habove] at hi'
      exact Bool.xor_left_inj.1 hi'
  exact BitVec.eq_of_getLsbD_eq fun i _ => hsame w i (by omega)

/-- An odd number is invertible modulo a power of two. -/
theorem mul_injective {c : BitVec w} (hc : c.toNat % 2 = 1) :
    Function.Injective fun x : BitVec w => x * c := by
  intro x y h
  have hmod : x.toNat * c.toNat ≡ y.toNat * c.toNat [MOD 2 ^ w] := by
    simpa [BitVec.toNat_mul, Nat.ModEq] using congrArg BitVec.toNat h
  have hcoprime : Nat.Coprime (2 ^ w) c.toNat := by
    refine Nat.Coprime.pow_left w ?_
    rw [Nat.coprime_iff_gcd_eq_one, Nat.gcd_rec, hc, Nat.gcd_one_left]
  have hxy := Nat.ModEq.cancel_right_of_coprime hcoprime hmod
  exact BitVec.eq_of_toNat_eq (hxy.eq_of_lt_of_lt x.isLt y.isLt)

/-- A power of two above 1 is even. -/
theorem toNat_twoPow_mod_two {k : ℕ} (hk : 0 < k) : (BitVec.twoPow w k).toNat % 2 = 0 := by
  rw [BitVec.toNat_twoPow]
  cases w with
  | zero => simp [Nat.mod_one]
  | succ w =>
    rw [Nat.mod_mod_of_dvd _ (dvd_pow_self 2 (Nat.succ_ne_zero w))]
    exact Nat.mod_eq_zero_of_dvd (dvd_pow_self 2 (by omega))

/-- `x += x << k` multiplies by an odd number, `2 ^ k + 1`. -/
theorem shiftLeft_add_injective {k : ℕ} (hk : 0 < k) :
    Function.Injective fun x : BitVec w => x + (x <<< k) := by
  cases w with
  | zero => exact Function.injective_of_subsingleton _
  | succ w =>
    have hodd : (1 + BitVec.twoPow (w + 1) k).toNat % 2 = 1 := by
      have heven := toNat_twoPow_mod_two (w := w + 1) hk
      have hone : (1 : BitVec (w + 1)).toNat = 1 := by simp
      rw [BitVec.toNat_add, Nat.mod_mod_of_dvd _ (dvd_pow_self 2 (Nat.succ_ne_zero w)), hone]
      omega
    -- it is a multiplication by an odd number
    have hmul : (fun x : BitVec (w + 1) => x + (x <<< k)) =
        fun x => x * (1 + BitVec.twoPow (w + 1) k) := by
      funext x
      rw [BitVec.shiftLeft_eq_mul_twoPow, mul_add, mul_one]
    rw [hmul]
    exact mul_injective hodd

/-- `~x + (x << k)` is `x * (2 ^ k - 1) - 1`, and `2 ^ k - 1` is odd. -/
theorem not_add_shiftLeft_injective {k : ℕ} (hk : 0 < k) :
    Function.Injective fun x : BitVec w => ~~~x + (x <<< k) := by
  cases w with
  | zero => exact Function.injective_of_subsingleton _
  | succ w =>
    have hodd : (BitVec.twoPow (w + 1) k - 1).toNat % 2 = 1 := by
      have heven := toNat_twoPow_mod_two (w := w + 1) hk
      have hsub := BitVec.toNat_sub (BitVec.twoPow (w + 1) k) 1
      have hone : (1 : BitVec (w + 1)).toNat = 1 := by simp
      have hpow : 2 ^ (w + 1) = 2 * 2 ^ w := Nat.pow_succ'
      have hpos : 0 < 2 ^ w := Nat.two_pow_pos w
      rw [hsub, Nat.mod_mod_of_dvd _ (dvd_pow_self 2 (Nat.succ_ne_zero w)), hone]
      omega
    intro x y h
    -- the complement is the negative without 1
    have hmul : ∀ x : BitVec (w + 1),
        ~~~x + (x <<< k) = x * (BitVec.twoPow (w + 1) k - 1) - 1 := by
      intro x
      have hone : (1#(w + 1) : BitVec (w + 1)) = 1 := rfl
      rw [BitVec.shiftLeft_eq_mul_twoPow, BitVec.not_eq_neg_add, mul_sub, mul_one, hone,
        sub_add_eq_add_sub, neg_add_eq_sub]
    simp only [hmul, sub_left_inj] at h
    exact mul_injective hodd h

/-! ### Counting -/

/-- As many numbers are mapped to one with a property as there are numbers with it,
since an injective map of finitely many numbers hits each once. -/
theorem ncard_of_injective {f : BitVec w → BitVec w} (hf : Function.Injective f) (p : ℕ → Prop)
    [DecidablePred p] : {x | p (f x).toNat}.ncard = Nat.count p (2 ^ w) := by
  have : Finite (BitVec w) := Finite.of_equiv _ (BitVec.equivFin (m := w)).toEquiv.symm
  have hsurj : Function.Surjective f := Finite.injective_iff_surjective.1 hf
  -- the numbers they are mapped to are all those with the property
  have himage : (fun x => (f x).toNat) '' {x | p (f x).toNat} =
      ↑((Finset.range (2 ^ w)).filter p) := by
    ext n
    simp only [Set.mem_image, Set.mem_ofPred_eq, Finset.coe_filter, Finset.mem_range]
    constructor
    · rintro ⟨x, hp, rfl⟩
      exact ⟨(f x).isLt, hp⟩
    · rintro ⟨hn, hp⟩
      obtain ⟨x, hx⟩ := hsurj (BitVec.ofNat w n)
      have hval : (f x).toNat = n := by rw [hx, BitVec.toNat_ofNat, Nat.mod_eq_of_lt hn]
      exact ⟨x, by rwa [hval], hval⟩
  calc {x | p (f x).toNat}.ncard
      = ((fun x => (f x).toNat) '' {x | p (f x).toNat}).ncard :=
        (Set.ncard_image_of_injective _ (BitVec.toNat_injective.comp hf)).symm
    _ = ((Finset.range (2 ^ w)).filter p).card := by rw [himage, Set.ncard_coe_finset]
    _ = Nat.count p (2 ^ w) := (Nat.count_eq_card_filter_range p _).symm

/-- A property of the remainder modulo `m` has as many numbers in each block of length
`m`. By induction on the number of blocks. -/
theorem count_mod (p : ℕ → Prop) [DecidablePred p] (q m : ℕ) :
    Nat.count (fun n => p (n % m)) (q * m) = q * Nat.count p m := by
  -- each block of `m` numbers counts the same
  have hblock : Nat.count (fun n => p (n % m)) m = Nat.count p m := by
    simp only [Nat.count_eq_card_filter_range]
    congr 1
    refine Finset.filter_congr fun n hn => ?_
    rw [Nat.mod_eq_of_lt (Finset.mem_range.1 hn)]
  induction q with
  | zero => simp
  | succ q ih =>
    have hshift : (fun k => p ((q * m + k) % m)) = fun k => p (k % m) := by
      funext k
      rw [Nat.mul_comm q m, Nat.mul_add_mod]
    rw [Nat.succ_mul, Nat.count_add, ih, Nat.succ_mul]
    simp only [hshift, hblock]

end Mixing
