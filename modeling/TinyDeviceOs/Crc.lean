import Mathlib.Tactic

/-! Cyclic redundancy checks with a register that moves towards its low end: the remainder of a
division of polynomials over the field of two elements. -/
namespace TinyDeviceOs.Crc

open Polynomial List Function

variable {w : ℕ} (poly : BitVec w)

/-- The bit that falls out decides whether the polynomial is added. -/
def shift (c : BitVec w) : BitVec w := if c.getLsbD 0 then (c >>> 1) ^^^ poly else c >>> 1

def feed (c : BitVec w) (b : Bool) : BitVec w := shift poly (c ^^^ (BitVec.ofBool b).setWidth w)

def run (c : BitVec w) (bits : List Bool) : BitVec w := bits.foldl (feed poly) c

section

variable {poly} {a b c : BitVec w} {n : ℕ}

theorem shift_eq (c : BitVec w) :
    shift poly c = (c >>> 1) ^^^ if c.getLsbD 0 then poly else 0#w := by
  rw [shift]
  split_ifs
  · rfl
  · rw [BitVec.xor_zero]

theorem shift_xor : shift poly (a ^^^ b) = shift poly a ^^^ shift poly b := by
  have hadded (x y : Bool) : (if xor x y then poly else 0#w) =
      (if x then poly else 0#w) ^^^ if y then poly else 0#w := by
    cases x <;> cases y <;> simp
  rw [shift_eq,shift_eq,shift_eq,BitVec.ushiftRight_xor_distrib,BitVec.getLsbD_xor,hadded]
  ac_rfl

theorem shift_zero : shift poly 0#w = 0#w := by
  simp [shift]

theorem iterate_xor : (shift poly)^[n] (a ^^^ b) = (shift poly)^[n] a ^^^ (shift poly)^[n] b := by
  induction n generalizing a b with
  | zero => rfl
  | succ n ih => rw [iterate_succ_apply,shift_xor,ih]; rfl

theorem iterate_zero (n : ℕ) : (shift poly)^[n] 0#w = 0#w := iterate_fixed shift_zero n

theorem run_append (xs ys : List Bool) :
    run poly c (xs++ys) = run poly (run poly c xs) ys := foldl_append

theorem run_xor (h : xs.length = ys.length) (a b : BitVec w) : run poly (a ^^^ b) (zipWith xor
    xs ys) = run poly a xs ^^^ run poly b ys := by
  induction xs generalizing ys a b with
  | nil =>
    obtain rfl : ys = [] := length_eq_zero_iff.mp h.symm
    rfl
  | cons x xs ih =>
    cases ys with
    | nil => simp at h
    | cons y ys =>
      have hbit : (BitVec.ofBool (xor x y)).setWidth w =
          (BitVec.ofBool x).setWidth w ^^^ (BitVec.ofBool y).setWidth w := by
        cases x <;> cases y <;> simp
      have hfeed : feed poly (a ^^^ b) (xor x y) = feed poly a x ^^^ feed poly b y := by
        rw [feed,feed,feed,←shift_xor,hbit]
        congr 1
        ac_rfl
      have hrest := ih (Nat.succ.inj h) (feed poly a x) (feed poly b y)
      simpa [run,hfeed] using hrest

theorem run_zeros : run poly c (replicate n false) = (shift poly)^[n] c := by
  induction n generalizing c with
  | zero => rfl
  | succ n ih =>
    have hfeed : feed poly c false = shift poly c := by simp [feed]
    rw [replicate_succ,iterate_succ_apply,←hfeed,←ih]
    rfl

end

section

variable {poly} {c : BitVec w} {bits : List Bool}

def word : List Bool → BitVec w
  | [] => 0#w
  | b::bs => (BitVec.ofBool b).setWidth w ^^^ word bs <<< 1

theorem word_getElem (bits : List Bool) (hi : i < w) : (word bits : BitVec w)[i] = bits.getD i
    false := by
  induction bits generalizing i with
  | nil => simp [word]
  | cons b bs ih =>
    cases i with
    | zero => simp [word]
    | succ i => simp [word,ih (Nat.lt_of_succ_lt hi)]

theorem run_word (h : bits.length ≤ w) :
    run poly c bits = (shift poly)^[bits.length] (c ^^^ word bits) := by
  induction bits generalizing c with
  | nil => simp [run,word]
  | cons b bs ih =>
    have hlen : bs.length < w := h
    have hback : (word bs <<< 1 : BitVec w) >>> 1 = word bs := by
      apply BitVec.eq_of_getElem_eq
      intro i hi
      by_cases hlast : 1+i < w
      · simp [hlast]
      · have hnone : (word bs : BitVec w)[i] = false := by
          rw [word_getElem bs hi,getD_eq_getElem?_getD,getElem?_eq_none (by omega)]
          rfl
        simp [hlast,hnone]
    have hlow : (word bs <<< 1 : BitVec w).getLsbD 0 = false := by simp
    have hshift : shift poly (word bs <<< 1 : BitVec w) = word bs := by
      rw [shift,hlow,hback]
      rfl
    calc run poly c (b::bs) = (shift poly)^[bs.length] (feed poly c b ^^^ word bs) := ih hlen.le
      _ = (shift poly)^[bs.length] (shift poly (c ^^^ word (b::bs))) := by
        rw [word,←BitVec.xor_assoc,shift_xor,hshift]
        rfl

theorem shift_eq_zero (hpoly : poly.msb = true) (h : shift poly c = 0#w) : c = 0#w := by
  rw [shift] at h
  split_ifs at h with hlow
  · have hsame : c >>> 1 = poly := by
      have := congrArg (· ^^^ poly) h
      simpa [BitVec.xor_assoc] using this
    have hmsb : (c >>> 1).msb = true := hsame.symm▸hpoly
    rw [BitVec.msb_ushiftRight] at hmsb
    simp at hmsb
  · apply BitVec.eq_of_getLsbD_eq
    intro i hi
    cases i with
    | zero => simpa using hlow
    | succ i =>
      have hbit := congrArg (fun x => x.getLsbD i) h
      rw [add_comm]
      simpa using hbit

theorem iterate_ne_zero (hpoly : poly.msb = true) (h : c ≠ 0#w) : (shift poly)^[n] c ≠ 0#w := by
  induction n with
  | zero => exact h
  | succ n ih =>
    rw [iterate_succ_apply']
    exact fun hzero => ih (shift_eq_zero hpoly hzero)

end

section

variable {poly} {xs ys bits : List Bool} {k : ℕ}

theorem run_zero_ne_zero (hpoly : poly.msb = true)
    (hin : ∀ i, bits[i]? = some true → k ≤ i ∧ i < k+w) (hsome : true ∈ bits) :
    run poly 0#w bits ≠ 0#w := by
  have hzeros {zs : List Bool} (h : true ∉ zs) : zs = replicate zs.length false :=
    eq_replicate_of_mem fun b hb => Bool.eq_false_of_not_eq_true fun htrue => h (htrue▸hb)
  have hbefore : true ∉ bits.take k := fun hmem => by
    obtain ⟨i,hi⟩ := mem_iff_getElem?.mp hmem
    rw [getElem?_take] at hi
    split_ifs at hi with hlt
    exact not_le.mpr hlt (hin i hi).1
  have hafter : true ∉ (bits.drop k).drop w := fun hmem => by
    obtain ⟨i,hi⟩ := mem_iff_getElem?.mp hmem
    rw [getElem?_drop,getElem?_drop] at hi
    have hlt := (hin _ hi).2
    omega
  have hlen : ((bits.drop k).take w).length ≤ w := by simp
  have hwindow : (word ((bits.drop k).take w) : BitVec w) ≠ 0#w := by
    obtain ⟨i,hi⟩ := mem_iff_getElem?.mp hsome
    obtain ⟨hle,hlt⟩ := hin i hi
    intro hzero
    have hbit := word_getElem (w:=w) ((bits.drop k).take w) (i:=i-k) (by omega)
    rw [getD_eq_getElem?_getD,getElem?_take,if_pos (by omega),getElem?_drop,
      Nat.add_sub_cancel' hle,hi] at hbit
    simp [hzero] at hbit
  have hsplit : run poly 0#w bits = (shift poly)^[((bits.drop k).drop w).length]
      ((shift poly)^[((bits.drop k).take w).length] (word ((bits.drop k).take w))) := by
    conv_lhs => rw [←take_append_drop k bits,←take_append_drop w (bits.drop k)]
    rw [run_append,run_append,hzeros hbefore,run_zeros,iterate_zero,run_word hlen,BitVec.zero_xor,
      hzeros hafter,run_zeros,length_replicate]
  rw [hsplit]
  exact iterate_ne_zero hpoly (iterate_ne_zero hpoly hwindow)

/-- Messages that differ, inside a window only, are told apart. -/
theorem run_ne_of_window (hpoly : poly.msb = true) (hlen : xs.length = ys.length) (hne : xs ≠
    ys) (hin : ∀ i, xs[i]? ≠ ys[i]? → k ≤ i ∧ i < k+w) : run poly c xs ≠ run poly c ys := by
  have hbits (i : ℕ) : (zipWith xor xs ys)[i]? = some true ↔ xs[i]? ≠ ys[i]? := by
    rw [getElem?_zipWith]
    by_cases hi : i < xs.length
    · rw [getElem?_eq_getElem hi,getElem?_eq_getElem (hlen▸hi)]
      simp
    · rw [getElem?_eq_none (by omega),getElem?_eq_none (by omega)]
      simp
  obtain ⟨i,hi⟩ : ∃ i, xs[i]? ≠ ys[i]? := by
    by_contra hall
    exact hne (ext_getElem? (by simpa using hall))
  have hnonzero : run poly 0#w (zipWith xor xs ys) ≠ 0#w :=
    run_zero_ne_zero hpoly (fun j hj => hin j ((hbits j).mp hj))
      (mem_of_getElem? ((hbits i).mpr hi))
  have hdiff : run poly (c ^^^ c) (zipWith xor xs ys) = run poly c xs ^^^ run poly c ys :=
    run_xor hlen c c
  rw [BitVec.xor_self] at hdiff
  intro heq
  rw [hdiff,heq,BitVec.xor_self] at hnonzero
  exact hnonzero rfl

end

section

variable {poly} {k : ℕ}

def low (k : ℕ) (c : BitVec w) : BitVec w := (c.setWidth k).setWidth w

theorem iterate_of_low_zero (h : ∀ i < k, c.getLsbD i = false) : (shift poly)^[k] c = c >>> k := by
  induction k with
  | zero => simp
  | succ k ih =>
    have hbit : (c >>> k).getLsbD 0 = false := by simpa using h k (Nat.lt_succ_self k)
    rw [iterate_succ_apply',ih fun i hi => h i (Nat.lt_succ_of_lt hi),shift,hbit,
      BitVec.shiftRight_add]
    rfl

theorem iterate_eq_low (k : ℕ) (c : BitVec w) :
    (shift poly)^[k] c = (shift poly)^[k] (low k c) ^^^ c >>> k := by
  have hhigh (i : ℕ) (hi : i < k) : (low k c ^^^ c).getLsbD i = false := by
    by_cases hw : i < w
    · simp [low,hi,hw]
    · simp [BitVec.getLsbD_of_ge _ i (not_lt.mp hw)]
  have hshift : (low k c ^^^ c) >>> k = c >>> k := by
    apply BitVec.eq_of_getLsbD_eq
    intro i _
    simp [low]
  have hsplit : low k c ^^^ (low k c ^^^ c) = c := by
    rw [←BitVec.xor_assoc,BitVec.xor_self,BitVec.zero_xor]
  conv_lhs => rw [←hsplit,iterate_xor,iterate_of_low_zero hhigh,hshift]

end

section

variable {poly}

/-- The lowest place has the highest power. -/
noncomputable def toPoly (c : BitVec w) : (ZMod 2)[X] :=
  ∑ i ∈ Finset.range w, if c.getLsbD i then X^(w-1-i) else 0

variable (poly) in
noncomputable def modulus : (ZMod 2)[X] := X^w+toPoly poly

/-- The first bit has the highest power. -/
noncomputable def message : List Bool → (ZMod 2)[X]
  | [] => 0
  | b::bs => (if b then X^bs.length else 0)+message bs

theorem toPoly_xor : toPoly (a ^^^ b) = toPoly a+toPoly b := by
  rw [toPoly,toPoly,toPoly,←Finset.sum_add_distrib]
  refine Finset.sum_congr rfl fun i _ => ?_
  rw [BitVec.getLsbD_xor]
  cases a.getLsbD i <;> cases b.getLsbD i <;> simp [CharTwo.add_self_eq_zero]

theorem toPoly_degree (c : BitVec w) : (toPoly c).degree < w := by
  refine (degree_sum_le _ _).trans_lt
    ((Finset.sup_lt_iff (WithBot.bot_lt_coe w)).mpr fun i hi => ?_)
  have hlt := Finset.mem_range.mp hi
  split_ifs
  · refine (degree_X_pow_le _).trans_lt ?_
    exact Nat.cast_lt.mpr (by omega)
  · rw [degree_zero]
    exact WithBot.bot_lt_coe w

variable (poly) in
theorem modulus_monic : (modulus poly).Monic := monic_X_pow_add (toPoly_degree poly)

theorem toPoly_mod (c : BitVec w) : toPoly c %ₘ modulus poly = toPoly c := by
  refine (modByMonic_eq_self_iff (modulus_monic poly)).mpr ?_
  rw [modulus,degree_add_eq_left_of_degree_lt (by rw [degree_X_pow]; exact toPoly_degree poly),
    degree_X_pow]
  exact toPoly_degree c

theorem X_mul_toPoly (c : BitVec w) :
    X*toPoly c = (if c.getLsbD 0 then X^w else 0)+toPoly (c >>> 1) := by
  cases w with
  | zero => simp [toPoly]
  | succ n =>
    have htop : (c >>> 1).getLsbD n = false := by simp
    rw [toPoly,Finset.mul_sum,Finset.sum_range_succ',toPoly,Finset.sum_range_succ,htop,add_comm]
    congr 1
    · rw [Nat.sub_zero,Nat.add_sub_cancel,mul_ite,mul_zero,pow_succ' X n]
    · rw [if_neg Bool.false_ne_true,add_zero]
      refine Finset.sum_congr rfl fun i hi => ?_
      have hlt := Finset.mem_range.mp hi
      have hexp : n+1-1-i = (n+1-1-(i+1))+1 := by omega
      rw [BitVec.getLsbD_ushiftRight,add_comm 1 i,mul_ite,mul_zero,hexp,pow_succ' X]

theorem toPoly_shift : toPoly (shift poly c) = (X*toPoly c) %ₘ modulus poly := by
  have hsplit : X*toPoly c = toPoly (shift poly c)+if c.getLsbD 0 then modulus poly else 0 := by
    rw [X_mul_toPoly,shift_eq,toPoly_xor]
    split_ifs
    · rw [modulus,add_comm (X^w),add_assoc,add_left_comm (toPoly poly),CharTwo.add_self_eq_zero,
        add_zero]
    · simp [toPoly]
  rw [hsplit,add_modByMonic,toPoly_mod]
  split_ifs
  · rw [modByMonic_self (modulus_monic poly),add_zero]
  · rw [zero_modByMonic,add_zero]

theorem mul_mod_add (hp : p.Monic) (a b c : (ZMod 2)[X]) : (a*(b %ₘ p)+c) %ₘ p = (a*b+c) %ₘ p := by
  have hsplit : a*b+c = a*(b %ₘ p)+c+p*(a*(b /ₘ p)) := by
    linear_combination -a*modByMonic_add_div b p
  rw [hsplit,add_modByMonic _ (p*_),(modByMonic_eq_zero_iff_dvd hp).mpr (dvd_mul_right p _),
    add_zero]

theorem toPoly_bit (hw : 0 < w) : toPoly ((BitVec.ofBool b).setWidth w) = if b then X^(w-1) else
    0 := by
  rw [toPoly,Finset.sum_eq_single 0]
  · cases b <;> simp [hw]
  · intro i _ hi
    simp [BitVec.getLsbD_setWidth,BitVec.getLsbD_of_ge (BitVec.ofBool b) i (by omega)]
  · exact fun h => absurd (Finset.mem_range.mpr hw) h

/-- The register is the remainder of its start and the message, moved up by the width. -/
theorem toPoly_run (hw : 0 < w) (c : BitVec w) (bits : List Bool) :
    toPoly (run poly c bits) = (X^bits.length*toPoly c+X^w*message bits) %ₘ modulus poly := by
  induction bits generalizing c with
  | nil => simp [run,message,toPoly_mod]
  | cons b bs ih =>
    have hpow : (X:(ZMod 2)[X])*X^(w-1) = X^w := by rw [←pow_succ',Nat.sub_add_cancel hw]
    have hfeed : toPoly (feed poly c b) =
        (X*(toPoly c+if b then X^(w-1) else 0)) %ₘ modulus poly := by
      rw [feed,toPoly_shift,toPoly_xor,toPoly_bit hw]
    calc toPoly (run poly c (b::bs)) =
        (X^bs.length*toPoly (feed poly c b)+X^w*message bs) %ₘ modulus poly := ih _
      _ = (X^bs.length*(X*(toPoly c+if b then X^(w-1) else 0))+X^w*message bs) %ₘ modulus poly := by
        rw [hfeed,mul_mod_add (modulus_monic poly)]
      _ = (X^(b::bs).length*toPoly c+X^w*message (b::bs)) %ₘ modulus poly := by
        congr 1
        rw [message,length_cons]
        cases b
        · simp only [Bool.false_eq_true,if_false]
          ring
        · simp only [if_true]
          linear_combination X^bs.length*hpow

end

section

variable {poly} {c : BitVec w} {xs ys bits : List Bool}

theorem run_append_word (hpoly : poly.msb = true) (hlen : ys.length = w) :
    run poly c (xs++ys) = 0#w ↔ run poly c xs = word ys := by
  rw [run_append,run_word hlen.le]
  constructor
  · intro hzero
    by_contra hne
    exact iterate_ne_zero hpoly (mt BitVec.xor_eq_zero_iff.mp hne) hzero
  · intro heq
    rw [heq,BitVec.xor_self,iterate_zero]

theorem run_error (hlen : xs.length = ys.length) (hx : run poly c xs = 0#w)
    (herr : run poly c (zipWith xor xs ys) = 0#w) : run poly 0#w ys = 0#w := by
  have hsum : run poly (c ^^^ 0#w) (zipWith xor xs ys) = run poly c xs ^^^ run poly 0#w ys :=
    run_xor hlen c 0#w
  rw [BitVec.xor_zero,herr,hx,BitVec.zero_xor] at hsum
  exact hsum.symm

theorem message_eval_one : (message bits).eval 1 = (bits.count true : ZMod 2) := by
  induction bits with
  | nil => simp [message]
  | cons b bs ih =>
    rw [message,eval_add,ih]
    cases b with
    | false => simp
    | true =>
      rw [if_pos rfl,eval_pow,eval_X,one_pow,count_cons_self,Nat.cast_succ,add_comm]

theorem run_odd_ne_zero (hw : 0 < w) (hroot : (modulus poly).eval 1 = 0)
    (hodd : Odd (bits.count true)) : run poly 0#w bits ≠ 0#w := by
  intro hzero
  have hrun : toPoly (run poly 0#w bits) = _ := toPoly_run hw 0#w bits
  have hnone : toPoly 0#w = 0 := by simp [toPoly]
  rw [hzero,hnone,mul_zero,zero_add] at hrun
  have hdvd : modulus poly ∣ X^w*message bits :=
    (modByMonic_eq_zero_iff_dvd (modulus_monic poly)).mp hrun.symm
  have heval : (X^w*message bits).eval 1 = 0 := by
    obtain ⟨q,hq⟩ := hdvd
    rw [hq,eval_mul,hroot,zero_mul]
  rw [eval_mul,eval_pow,eval_X,one_pow,one_mul,message_eval_one] at heval
  have heven := (ZMod.natCast_eq_zero_iff_even).mp heval
  exact Nat.not_even_iff_odd.mpr hodd heven

theorem first_true (h : bits.count true = n+1) : ∃ a rest, bits = replicate a false++true::rest
    ∧ rest.count true = n := by
  induction bits with
  | nil => simp at h
  | cons b bs ih =>
    cases b with
    | true => exact ⟨0,bs,rfl,by rw [count_cons_self] at h; omega⟩
    | false =>
      obtain ⟨a,rest,rfl,hrest⟩ := ih (by simpa using h)
      exact ⟨a+1,rest,rfl,hrest⟩

theorem no_true (h : bits.count true = 0) : bits = replicate bits.length false :=
  eq_replicate_of_mem fun b hb => by
    cases b with
    | false => rfl
    | true => exact absurd hb (count_eq_zero.mp h)

/-- Two errors cancel only where the register comes back. -/
theorem run_two_ne_zero (hpoly : poly.msb = true)
    (horder : ∀ n, 0 < n → n < bits.length → (shift poly)^[n] 1#w ≠ 1#w)
    (htwo : bits.count true = 2) : run poly 0#w bits ≠ 0#w := by
  obtain ⟨a,rest,rfl,hrest⟩ := first_true htwo
  obtain ⟨b,last,rfl,hlast⟩ := first_true hrest
  rw [no_true hlast]
  have hone : (BitVec.ofBool true).setWidth w = 1#w := BitVec.eq_of_toNat_eq (by simp)
  have hrun : run poly 0#w (replicate a false++true::(replicate b false++
      true::replicate last.length false)) =
      (shift poly)^[last.length+1] ((shift poly)^[b+1] 1#w ^^^ 1#w) := by
    rw [run_append,run_zeros,iterate_zero,run,foldl_cons,←run,run_append,run_zeros,run,
      foldl_cons,←run,run_zeros,feed,feed,hone,BitVec.zero_xor,←iterate_succ_apply,
      ←iterate_succ_apply]
  rw [hrun]
  refine iterate_ne_zero hpoly (mt BitVec.xor_eq_zero_iff.mp (horder (b+1) (by omega) ?_))
  simp only [length_append,length_replicate,length_cons]
  omega

end

end TinyDeviceOs.Crc
