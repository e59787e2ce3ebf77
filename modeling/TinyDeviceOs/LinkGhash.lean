import TinyDeviceOs.LinkCrypto
import TinyDeviceOs.ResidueWords

/-! The hash of `link/link_crypto.c` as the value of a polynomial at the hash key. The first bit of
a block, the highest of its first byte, is the constant term. -/
namespace TinyDeviceOs.LinkCrypto

open LittleEndian Polynomial Crc ResidueWords
open List hiding Vector

/-- The last byte's lowest bit is the lowest. -/
def blockWord (b : Block) : BitVec 128 :=
  word ((range 128).map fun i => b[15-i/8].toBitVec.getLsbD (i%8))

noncomputable def gcmPoly : (ZMod 2)[X] := X^128+(X^7+X^2+X+1)

noncomputable def element (b : Block) : AdjoinRoot gcmPoly := residue gcmPoly (blockWord b)

def gcmTaps : BitVec 128 := 0xe1#128 <<< 120

theorem modulus_gcmTaps : modulus gcmTaps = gcmPoly := by
  have hbits : (Finset.range 128).filter (fun i => gcmTaps.getMsbD i) = {0,1,2,7} := by
    decide +kernel
  have htaps : (∑ i ∈ {0,1,2,7}, X^i : (ZMod 2)[X]) = X^7+X^2+X+1 := by
    simp
    ring
  unfold gcmPoly
  rw [modulus_eq_sum,hbits,htaps]

theorem blockWord_getLsbD (b : Block) (hi : i < 128) :
    (blockWord b).getLsbD i = b[15-i/8].toBitVec.getLsbD (i%8) := by
  rw [BitVec.getLsbD_eq_getElem hi,blockWord,word_getElem _ hi]
  simp [hi]

theorem blockWord_injective : Function.Injective blockWord := fun a b h =>
  Vector.ext fun i hi => UInt8.toBitVec_inj.mp (BitVec.eq_of_getLsbD_eq fun j hj => by
    have hplace : 15-(8*(15-i)+j)/8 = i ∧ (8*(15-i)+j)%8 = j := by omega
    have hbit := congrArg (fun c => c.getLsbD (8*(15-i)+j)) h
    simpa only [blockWord_getLsbD _ (show 8*(15-i)+j < 128 by omega),hplace] using hbit)

theorem blockWord_xor (a b : Block) : blockWord (xorBlock a b) = blockWord a ^^^ blockWord b := by
  apply BitVec.eq_of_getLsbD_eq
  intro i hi
  rw [BitVec.getLsbD_xor,blockWord_getLsbD _ hi,blockWord_getLsbD _ hi,blockWord_getLsbD _ hi]
  simp [xorBlock]

theorem shifted_bit (a b : UInt8) (hj : j < 8) : ((a >>> 1) ||| (b <<< 7)).toBitVec.getLsbD j =
    if j = 7 then b.toBitVec.getLsbD 0 else a.toBitVec.getLsbD (j+1) := by
  interval_cases j <;> simp

theorem forall_byte {P : UInt8 → Prop} (h : ∀ n : Fin 256, P (UInt8.ofFin n)) (b : UInt8) : P b :=
  h b.toFin

theorem tested_bit : ∀ b : UInt8, ∀ j : Fin 8, b &&& (1 <<< UInt8.ofNat (7-j)) ≠ 0 ↔
    b.toBitVec.getLsbD (7-j) = true :=
  forall_byte (by decide +kernel)

/-- The shift of the code is the library's. -/
theorem blockWord_shift (v : Block) :
    blockWord (shiftRightBlock v) = shift gcmTaps (blockWord v) := by
  let shifted : Block := Vector.ofFn fun i =>
    if i = 0 then v[0] >>> 1 else (v[i] >>> 1) ||| (v.toList.getD (i-1) 0 <<< 7)
  have hbyte (k : ℕ) (hk : k < 16) : shifted[k] =
      (v[k] >>> 1) ||| ((if k = 0 then 0 else v[k-1]) <<< 7) := by
    by_cases h : k = 0
    · simp [shifted,h]
    · simp only [shifted,Vector.getElem_ofFn,Fin.ext_iff,Fin.val_zero,if_neg h]
      simp [show k-1 < 16 by omega]
  have hshifted : blockWord shifted = blockWord v >>> 1 := by
    apply BitVec.eq_of_getLsbD_eq
    intro i hi
    rw [blockWord_getLsbD _ hi,hbyte,shifted_bit _ _ (by omega),BitVec.getLsbD_ushiftRight]
    by_cases hlast : i = 127
    · subst hlast
      simp
    rw [blockWord_getLsbD v (by omega)]
    by_cases h7 : i%8 = 7
    · have hplace : 15-(1+i)/8 = 15-i/8-1 ∧ (1+i)%8 = 0 := by omega
      simp [h7,hplace,show 15-i/8 ≠ 0 by omega]
    · have hplace : 15-(1+i)/8 = 15-i/8 ∧ (1+i)%8 = i%8+1 := by omega
      simp [h7,hplace]
  have hlow : v[15] &&& 1 ≠ 0 ↔ (blockWord v).getLsbD 0 = true := by
    rw [blockWord_getLsbD v (by decide)]
    exact tested_bit v[15] 7
  have htaps : shifted.set 0 (shifted[0] ^^^ 0xe1) = xorBlock shifted (Block.ofBytes [0xe1]) := by
    refine Vector.ext fun i hi => ?_
    cases i with
    | zero => simp [xorBlock,Block.ofBytes]
    | succ i => simp [xorBlock,Block.ofBytes]
  have hword : blockWord (Block.ofBytes [0xe1]) = gcmTaps := by decide +kernel
  have hcode : shiftRightBlock v = if v[15] &&& 1 ≠ 0 then xorBlock shifted (Block.ofBytes [0xe1])
      else shifted := by rw [←htaps]; rfl
  rw [hcode,shift]
  by_cases h : v[15] &&& 1 ≠ 0
  · rw [if_pos h,if_pos (hlow.mp h),blockWord_xor,hshifted,hword]
  · rw [if_neg h,if_neg (mt hlow.mpr h),hshifted]

theorem foldl_range_mul {α : Type} (f : α → ℕ → α) (m n : ℕ) (a : α) : (range (m*n)).foldl f a =
    (range m).foldl (fun a i => (range n).foldl (fun a j => f a (i*n+j)) a) a := by
  induction m with
  | zero => rw [zero_mul]; rfl
  | succ m ih =>
    rw [Nat.succ_mul,range_add,foldl_append,ih,range_succ,foldl_append,foldl_cons,foldl_nil,
      foldl_map]

/-- One bit of the left factor, by its place in the block. -/
def bitAt (x : Block) (zv : Block × Block) (i : ℕ) : Block × Block :=
  (if (blockWord x).getMsbD i then xorBlock zv.1 zv.2 else zv.1,shiftRightBlock zv.2)

theorem gcmBit_eq (x : Block) (zv : Block × Block) (hi : i < 16) (hj : j < 8) :
    gcmBit x[i] zv j = bitAt x zv (i*8+j) := by
  have hplace : 15-(128-1-(i*8+j))/8 = i ∧ (128-1-(i*8+j))%8 = 7-j := by omega
  have hbit : (blockWord x).getMsbD (i*8+j) = x[i].toBitVec.getLsbD (7-j) := by
    rw [BitVec.getMsbD,blockWord_getLsbD x (by omega)]
    simp [hplace,show i*8+j < 128 by omega]
  rw [gcmBit,bitAt,hbit]
  simp only [tested_bit x[i] ⟨j,hj⟩]

theorem blockWord_gcmMul (x h : Block) :
    blockWord (gcmMul x h) = mulWords gcmTaps (blockWord x) (blockWord h) := by
  have hbytes : x.toList = (finRange 16).map fun i => x[i] :=
    ext_getElem (by simp) fun i _ _ => by simp
  have hbits : x.toList.foldl (fun zv byte => (range 8).foldl (gcmBit byte) zv)
      (Vector.replicate 16 0,h) = (range (16*8)).foldl (bitAt x) (Vector.replicate 16 0,h) := by
    rw [hbytes,foldl_map,foldl_range_mul,←map_coe_finRange_eq_range (n:=16),foldl_map]
    exact foldl_ext _ _ _ fun zv i _ => foldl_ext _ _ _ fun zv j hj =>
      gcmBit_eq x zv i.isLt (mem_range.mp hj)
  have hstep (zv : Block × Block) (i : ℕ) : addShifted gcmTaps (blockWord x)
      (zv.map blockWord blockWord) i = (bitAt x zv i).map blockWord blockWord := by
    rw [addShifted,bitAt,Prod.map,Prod.map,blockWord_shift]
    split_ifs
    · rw [blockWord_xor]
    · rfl
  have hloop (is : List ℕ) (zv : Block × Block) :
      is.foldl (addShifted gcmTaps (blockWord x)) (zv.map blockWord blockWord) =
        (is.foldl (bitAt x) zv).map blockWord blockWord := foldl_hom _ hstep
  have hzero : 0#128 = blockWord (Vector.replicate 16 0) := by decide +kernel
  rw [gcmMul,hbits,mulWords,hzero]
  exact (congrArg Prod.fst (hloop (range 128) (Vector.replicate 16 0,h))).symm

theorem element_injective : Function.Injective element := fun _ _ h =>
  blockWord_injective (residue_injective modulus_gcmTaps h)

theorem element_xor (a b : Block) : element (xorBlock a b) = element a+element b := by
  rw [element,blockWord_xor,residue_xor]
  rfl

theorem element_gcmMul (x h : Block) : element (gcmMul x h) = element x*element h := by
  rw [element,blockWord_gcmMul,residue_mulWords modulus_gcmTaps]
  rfl

/-- The data's `i`-th block, padded with zeros. -/
def blockOf (data : Bytes) (i : ℕ) : Block := Block.ofBytes ((data.drop (16*i)).take 16)

theorem element_ghashUpdate (h y : Block) (data : Bytes) :
    let n := (data.length+15)/16
    element (ghashUpdate h y data) = element y*element h^n+
      ∑ i ∈ Finset.range n, element (blockOf data i)*element h^(n-i) := by
  fun_induction ghashUpdate h y data with
  | case1 y => simp
  | case2 y data hd ih =>
    have hpos := length_pos_iff.mpr hd
    have hn : (data.length+15)/16 = ((data.drop 16).length+15)/16+1 := by
      rw [length_drop]
      omega
    have hnext (i : ℕ) : blockOf (data.drop 16) i = blockOf data (i+1) := by
      rw [blockOf,blockOf,drop_drop,mul_add,mul_one,add_comm]
    simp only [hnext] at ih
    simp only [hn,Finset.sum_range_succ',Nat.add_sub_add_right]
    rw [ih,element_gcmMul,element_xor,pow_succ]
    simp only [blockOf,mul_zero,drop_zero,Nat.sub_zero,pow_succ]
    ring

theorem ghashUpdate_append (h y : Block) (before : List Block) (data : Bytes) :
    ghashUpdate h y (before.flatMap Vector.toList++data) =
      ghashUpdate h (ghashUpdate h y (before.flatMap Vector.toList)) data := by
  induction before generalizing y with
  | nil => rw [flatMap_nil,nil_append,ghashUpdate.eq_def h y [],if_pos rfl]
  | cons b before ih =>
    have hstep (rest : Bytes) : ghashUpdate h y (b.toList++rest) =
        ghashUpdate h (gcmMul (xorBlock y b) h) rest := by
      have hne : b.toList++rest ≠ [] := by simp
      have hlen : b.toList.length = 16 := Vector.length_toList
      have hb : Block.ofBytes b.toList = b := by simpa using Block.ofBytes_toList_append (b:=b) []
      rw [ghashUpdate,if_neg hne,take_left' hlen,drop_left' hlen,hb]
    rw [flatMap_cons,append_assoc,hstep,hstep,ih]

/-- The multiplication is the one of the ring, which the blocks are embedded into; the hash is a
polynomial in the hash key, and whole blocks may be hashed in a call of their own. -/
theorem ghash_evaluates (x y z h : Block) (before : List Block) (data : Bytes) :
    let n := (data.length+15)/16
    Function.Injective element ∧ element (xorBlock x y) = element x+element y ∧
      element (gcmMul x h) = element x*element h ∧ gcmMul x y = gcmMul y x ∧
      gcmMul (gcmMul x y) z = gcmMul x (gcmMul y z) ∧
      gcmMul x (xorBlock y z) = xorBlock (gcmMul x y) (gcmMul x z) ∧
      element (ghashUpdate h y data) = element y*element h^n+
        ∑ i ∈ Finset.range n, element (blockOf data i)*element h^(n-i) ∧
      ghashUpdate h y (before.flatMap Vector.toList++data) =
        ghashUpdate h (ghashUpdate h y (before.flatMap Vector.toList)) data := by
  refine ⟨element_injective,element_xor x y,element_gcmMul x h,?_,?_,?_,
    element_ghashUpdate h y data,ghashUpdate_append h y before data⟩
  · apply element_injective
    rw [element_gcmMul,element_gcmMul,mul_comm]
  · apply element_injective
    simp only [element_gcmMul,mul_assoc]
  · apply element_injective
    simp only [element_gcmMul,element_xor,mul_add]

end TinyDeviceOs.LinkCrypto
