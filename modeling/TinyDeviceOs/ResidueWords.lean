import TinyDeviceOs.Crc

/-! Words as residues of polynomials over the field of two elements: the exclusive or adds, a
shift multiplies by the root, and shifts and additions multiply. -/
namespace TinyDeviceOs.ResidueWords

open Polynomial Crc AdjoinRoot

variable {w : ℕ} {f : (ZMod 2)[X]} {poly : BitVec w}

variable (f) in
noncomputable def residue (c : BitVec w) : AdjoinRoot f := mk f (toPoly c)

theorem toPoly_eq_sum (c : BitVec w) :
    toPoly c = ∑ i ∈ Finset.range w, if c.getMsbD i then X^i else 0 := by
  rw [toPoly,←Finset.sum_range_reflect]
  refine Finset.sum_congr rfl fun i hi => ?_
  have hlt := Finset.mem_range.mp hi
  have hexp : w-1-(w-1-i) = i := by omega
  rw [BitVec.getMsbD,hexp]
  simp [hlt]

theorem modulus_eq_sum (poly : BitVec w) : modulus poly =
    X^w+∑ i ∈ (Finset.range w).filter fun i => poly.getMsbD i, X^i := by
  rw [modulus,toPoly_eq_sum,Finset.sum_filter]

theorem residue_eq_sum (c : BitVec w) :
    residue f c = ∑ i ∈ Finset.range w, if c.getMsbD i then root f^i else 0 := by
  rw [residue,toPoly_eq_sum,map_sum]
  simp [apply_ite (mk f)]

theorem residue_xor (a b : BitVec w) : residue f (a ^^^ b) = residue f a+residue f b := by
  rw [residue,toPoly_xor,map_add]
  rfl

theorem residue_zero : residue f 0#w = 0 := by simp [residue,toPoly]

theorem toPoly_injective : Function.Injective (toPoly : BitVec w → (ZMod 2)[X]) := by
  have hcoeff (c : BitVec w) (i : ℕ) (hi : i < w) :
      (toPoly c).coeff (w-1-i) = if c.getLsbD i then 1 else 0 := by
    rw [toPoly,finsetSum_coeff,Finset.sum_eq_single i]
    · split_ifs <;> simp
    · intro j hj hne
      have hlt := Finset.mem_range.mp hj
      split_ifs
      · rw [coeff_X_pow,if_neg (by omega)]
      · rfl
    · exact fun h => absurd (Finset.mem_range.mpr hi) h
  intro a b h
  apply BitVec.eq_of_getLsbD_eq
  intro i hi
  have hbit := hcoeff a i hi
  rw [h,hcoeff b i hi] at hbit
  cases ha : a.getLsbD i <;> cases hb : b.getLsbD i <;> simp_all

section

variable (hf : modulus poly = f)

include hf

theorem residue_injective : Function.Injective (residue f : BitVec w → AdjoinRoot f) := by
  subst hf
  intro a b h
  have hdvd : modulus poly ∣ toPoly a-toPoly b := mk_eq_mk.mp h
  have hmod := modByMonic_eq_of_dvd_sub (modulus_monic poly) hdvd
  rw [toPoly_mod,toPoly_mod] at hmod
  exact toPoly_injective hmod

theorem residue_shift (c : BitVec w) : residue f (shift poly c) = root f*residue f c := by
  subst hf
  rw [residue,toPoly_shift,residue,←mk_X,←map_mul]
  refine mk_eq_mk.mpr ⟨-(X*toPoly c /ₘ modulus poly),?_⟩
  linear_combination modByMonic_add_div (X*toPoly c) (modulus poly)

end

/-- What one bit of the left factor does to the sum and to the right factor. -/
def addShifted (poly x : BitVec w) (zv : BitVec w × BitVec w) (i : ℕ) : BitVec w × BitVec w :=
  (if x.getMsbD i then zv.1 ^^^ zv.2 else zv.1,shift poly zv.2)

def mulWords (poly x h : BitVec w) : BitVec w :=
  ((List.range w).foldl (addShifted poly x) (0#w,h)).1

theorem residue_mulWords (hf : modulus poly = f) (x h : BitVec w) :
    residue f (mulWords poly x h) = residue f x*residue f h := by
  -- After n bits: the sum over those bits, and the right factor times the root's n-th power.
  have hloop (n : ℕ) :
      let zv := (List.range n).foldl (addShifted poly x) (0#w,h)
      residue f zv.1 = (∑ i ∈ Finset.range n, if x.getMsbD i then root f^i else 0)*residue f h ∧
        residue f zv.2 = root f^n*residue f h := by
    induction n with
    | zero => simp [residue_zero]
    | succ n ih =>
      simp only [List.range_succ,List.foldl_append,List.foldl_cons,List.foldl_nil,addShifted,
        Finset.sum_range_succ,add_mul]
      refine ⟨?_,?_⟩
      · split_ifs
        · rw [residue_xor,ih.1,ih.2]
        · rw [ih.1,zero_mul,add_zero]
      · rw [residue_shift hf,ih.2,pow_succ',mul_assoc]
  rw [mulWords,(hloop w).1,residue_eq_sum x]

end TinyDeviceOs.ResidueWords
