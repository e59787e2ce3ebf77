import Mathlib.LinearAlgebra.Matrix.Circulant
import TinyDeviceOs.LinkGhash

/-! The block cipher of `link/link_crypto.c` against FIPS-197, which is written here over the field
of 256 elements: the lowest bit of a byte is the constant term. -/
namespace TinyDeviceOs.LinkCrypto

open LittleEndian Polynomial Crc ResidueWords AdjoinRoot
open List hiding Vector

noncomputable def aesPoly : (ZMod 2)[X] := X^8+(X^4+X^3+X+1)

noncomputable def gf (b : UInt8) : AdjoinRoot aesPoly := residue aesPoly b.toBitVec.reverse

def aesTaps : BitVec 8 := (0x1b#8).reverse

theorem modulus_aesTaps : modulus aesTaps = aesPoly := by
  have hbits : (Finset.range 8).filter (fun i => aesTaps.getMsbD i) = {0,1,3,4} := by decide
  rw [modulus_eq_sum,hbits,aesPoly]
  simp
  ring

theorem gf_injective : Function.Injective gf := fun a b h => by
  have hrev := residue_injective modulus_aesTaps h
  have hback := congrArg BitVec.reverse hrev
  exact UInt8.toBitVec_inj.mp (by simpa using hback)

theorem gf_xor (a b : UInt8) : gf (a ^^^ b) = gf a+gf b := by
  have hrev : (a ^^^ b).toBitVec.reverse = a.toBitVec.reverse ^^^ b.toBitVec.reverse := by
    apply BitVec.eq_of_getLsbD_eq
    intro i hi
    simp [BitVec.getLsbD_reverse]
  rw [gf,hrev,residue_xor]
  rfl

theorem gf_xtime (b : UInt8) : gf (xtime b) = root aesPoly*gf b := by
  have hrev : ∀ b : UInt8, (xtime b).toBitVec.reverse = shift aesTaps b.toBitVec.reverse :=
    forall_byte (by decide +kernel)
  rw [gf,hrev,residue_shift modulus_aesTaps]
  rfl

theorem gf_one : gf 1 = 1 := by
  have hbits : (Finset.range 8).filter (fun i => (1:UInt8).toBitVec.reverse.getMsbD i) = {0} := by
    decide
  rw [gf,residue_eq_sum,←Finset.sum_filter,hbits]
  simp

theorem gf_zero : gf 0 = 0 := residue_zero

abbrev State := Matrix (Fin 4) (Fin 4) (AdjoinRoot aesPoly)

def place (r c : Fin 4) : Fin 16 := ⟨r+4*c,by omega⟩

noncomputable def stateOf (b : Block) : State := fun r c => gf b[place r c]

/-- Bit `i` is the sum of bits `i`, `i+4`, `i+5`, `i+6` and `i+7` modulo 8 and of 0x63's. -/
def affine (b : UInt8) : UInt8 :=
  let r (k : ℕ) := b.toBitVec.rotateLeft k
  ⟨r 0 ^^^ r 1 ^^^ r 2 ^^^ r 3 ^^^ r 4 ^^^ 0x63#8⟩

noncomputable def byteOf (a : AdjoinRoot aesPoly) : UInt8 := Function.invFun gf a

/-- Zero has no inverse and stays. -/
noncomputable def sBox (a : AdjoinRoot aesPoly) : AdjoinRoot aesPoly :=
  gf (affine (byteOf (Ring.inverse a)))

section Cipher

variable (key s : State)

noncomputable def substituted : State := s.map sBox

noncomputable def rotated : State := fun r c => s r (c+r)

noncomputable def mixed : State := Matrix.circulant ![root aesPoly,1,1,root aesPoly+1]*s

noncomputable def keyWord (i : ℕ) : Fin 4 → AdjoinRoot aesPoly :=
  if h : i < 4 then fun r => key r ⟨i,h⟩
  else keyWord (i-4)+if i%4 = 0 then
      fun r => sBox (keyWord (i-1) (finRotate 4 r))+if r.val = 0 then root aesPoly^(i/4-1) else 0
    else keyWord (i-1)

noncomputable def roundKeyOf (n : ℕ) : State := fun r c => keyWord key (4*n+c) r

noncomputable def cipher : State :=
  let s := (range' 1 9).foldl (fun s n => mixed (rotated (substituted s))+roundKeyOf key n)
    (s+roundKeyOf key 0)
  rotated (substituted s)+roundKeyOf key 10

end Cipher

def unaffine (b : UInt8) : UInt8 :=
  let r (k : ℕ) := b.toBitVec.rotateLeft k
  ⟨r 1 ^^^ r 3 ^^^ r 6 ^^^ 0x05#8⟩

theorem unaffine_sub : ∀ x : UInt8, affine (unaffine (sub x)) = sub x ∧
    if x = 0 then unaffine (sub x) = 0
    else mulWords aesTaps x.toBitVec.reverse (unaffine (sub x)).toBitVec.reverse =
      (1:UInt8).toBitVec.reverse :=
  forall_byte (by decide +kernel)

theorem gf_sub (x : UInt8) : gf (sub x) = sBox (gf x) := by
  obtain ⟨haffine,hinverse⟩ := unaffine_sub x
  have hring : Ring.inverse (gf x) = gf (unaffine (sub x)) := by
    split_ifs at hinverse with hx
    · rw [hinverse,hx,gf_zero,Ring.inverse_zero]
    · have hmul : gf x*gf (unaffine (sub x)) = 1 := by
        rw [gf,gf,←residue_mulWords modulus_aesTaps,hinverse]
        exact gf_one
      exact (Ring.inverse_unit (Units.mkOfMulEqOne _ _ hmul))
  rw [sBox,hring,byteOf,Function.leftInverse_invFun gf_injective,haffine]

theorem stateOf_injective : Function.Injective stateOf := fun a b h => by
  have hplace : ∀ p, ∃ r c, place r c = p := by decide
  have hbyte (p : Fin 16) : a[p] = b[p] := by
    obtain ⟨r,c,rfl⟩ := hplace p
    exact gf_injective (congrFun (congrFun h r) c)
  exact Vector.ext fun i hi => hbyte ⟨i,hi⟩

theorem ofBytes_getElem (bs : Bytes) (hi : i < 16) : (Block.ofBytes bs)[i] = bs.getD i 0 := by
  simp [Block.ofBytes]

theorem stateOf_xor (a b : Block) : stateOf (xorBlock a b) = stateOf a+stateOf b := by
  ext r c
  simp [stateOf,xorBlock,gf_xor]

theorem stateOf_subBytes (b : Block) : stateOf (subBytes b) = substituted (stateOf b) := by
  ext r c
  simp [stateOf,subBytes,substituted,gf_sub]

theorem stateOf_shiftRows (b : Block) : stateOf (shiftRows b) = rotated (stateOf b) := by
  ext r c
  fin_cases r <;> fin_cases c <;> rfl

theorem gf_mixColumn (a : Fin 4 → UInt8) (r : Fin 4) :
    gf ((mixColumn (a 0) (a 1) (a 2) (a 3)).getD r 0) =
      ∑ k, Matrix.circulant ![root aesPoly,1,1,root aesPoly+1] r k*gf (a k) := by
  rw [Fin.sum_univ_four]
  simp only [Matrix.circulant_apply]
  fin_cases r <;> simp [mixColumn,gf_xor,gf_xtime] <;> ring

theorem stateOf_mixColumns (b : Block) : stateOf (mixColumns b) = mixed (stateOf b) := by
  ext r c
  have hcolumn : (mixColumns b)[place r c] =
      (mixColumn b[place 0 c] b[place 1 c] b[place 2 c] b[place 3 c]).getD r 0 := by
    rw [mixColumns,Fin.getElem_fin,ofBytes_getElem]
    fin_cases r <;> fin_cases c <;> rfl
  rw [stateOf,hcolumn]
  exact gf_mixColumn (fun k => b[place k c]) r

theorem gf_kRcon (h : n < 10) : gf (kRcon.getD (n+1) 0) = root aesPoly^n := by
  induction n with
  | zero => simpa [kRcon] using gf_one
  | succ n ih =>
    have hnext : ∀ n < 9, kRcon.getD (n+1+1) 0 = xtime (kRcon.getD (n+1) 0) := by decide
    rw [hnext n (by omega),gf_xtime,ih (by omega),pow_succ']

section Schedule

variable (key : Block)

/-- The first `i` words. -/
structure Expanded (i : ℕ) (rk : Bytes) : Prop where
  length : rk.length = 4*i
  bytes (j : ℕ) (hj : j < i) (r : Fin 4) : gf (rk.getD (4*j+r) 0) = keyWord (stateOf key) j r

variable {key}

theorem gf_keyTemp (h : Expanded key i rk) (hi : 4 ≤ i) (hlast : i < 44) (r : Fin 4) :
    gf ((keyTemp rk i).getD r 0) = (if i%4 = 0 then
      fun r => sBox (keyWord (stateOf key) (i-1) (finRotate 4 r))+
        if r.val = 0 then root aesPoly^(i/4-1) else 0
    else keyWord (stateOf key) (i-1)) r := by
  have hbyte (r : Fin 4) : gf (rk.getD ((i-1)*4+r) 0) = keyWord (stateOf key) (i-1) r := by
    rw [mul_comm]
    exact h.bytes (i-1) (by omega) r
  have hrcon : gf (kRcon.getD (i/4) 0) = root aesPoly^(i/4-1) := by
    rw [←gf_kRcon (by omega),Nat.sub_add_cancel (by omega)]
  rw [keyTemp]
  split_ifs
  · simp only [←hbyte,←gf_sub,←hrcon]
    fin_cases r
    · exact gf_xor _ _
    · exact (add_zero _).symm
    · exact (add_zero _).symm
    · exact (add_zero _).symm
  · rw [←hbyte]
    fin_cases r <;> rfl

theorem Expanded.step (h : Expanded key i rk) (hi : 4 ≤ i) (hlast : i < 44) :
    Expanded key (i+1) (expandKeyStep rk i) := by
  have hlen := h.length
  refine ⟨by rw [expandKeyStep,length_append,length_map,length_range]; omega,fun j hj r => ?_⟩
  rw [expandKeyStep]
  by_cases hold : j < i
  · rw [getD_append _ _ _ _ (by omega),h.bytes j hold r]
  · obtain rfl : j = i := by omega
    rw [getD_append_right _ _ _ _ (by omega),keyWord,dif_neg (by omega),Pi.add_apply,
      ←gf_keyTemp h hi hlast,←h.bytes (j-4) (by omega) r,←gf_xor,mul_comm 4 (j-4)]
    have hindex : 4*j+r-rk.length = r := by omega
    rw [hindex]
    fin_cases r <;> rfl

theorem expanded_expandKey : Expanded key 44 (expandKey key) := by
  have hloop (n : ℕ) (hn : n ≤ 40) :
      Expanded key (4+n) ((range' 4 n).foldl expandKeyStep key.toList) := by
    induction n with
    | zero =>
      refine ⟨Vector.length_toList,fun j hj r => ?_⟩
      have hbyte (p : Fin 16) : key.toList.getD p 0 = key[p] := by simp
      rw [keyWord,dif_pos hj,stateOf,←hbyte,add_comm]
      rfl
    | succ n ih =>
      rw [range'_1_concat,foldl_append]
      exact (ih (by omega)).step (by omega) (by omega)
  exact hloop 40 le_rfl

theorem stateOf_addRoundKey (b : Block) (hn : n ≤ 10) : stateOf (addRoundKey b (expandKey key)
    (n*16)) = stateOf b+roundKeyOf (stateOf key) n := by
  rw [addRoundKey,stateOf_xor]
  congr 1
  ext r c
  have hindex : n*16+place r c = 4*(4*n+c)+r := by
    rw [place]
    ring
  rw [stateOf,Fin.getElem_fin,ofBytes_getElem,roundKeyOf,←expanded_expandKey.bytes (4*n+c) (by omega) r,←hindex,
    getD_eq_getElem?_getD,getElem?_drop,getD_eq_getElem?_getD]

end Schedule

/-- For every key and block: the code's result is the cipher's. -/
theorem aes_encrypts (key inp out : Block) : aesEncryptBlock (expandKey key) inp = out ↔
    stateOf out = cipher (stateOf key) (stateOf inp) := by
  have hround (n : ℕ) (hn : n ≤ 9) :
      stateOf ((range' 1 n).foldl (aesRound (expandKey key)) (addRoundKey inp (expandKey key) 0)) =
        (range' 1 n).foldl (fun s n => mixed (rotated (substituted s))+roundKeyOf (stateOf key) n)
          (stateOf inp+roundKeyOf (stateOf key) 0) := by
    induction n with
    | zero => exact stateOf_addRoundKey inp (n:=0) (by omega)
    | succ n ih =>
      rw [range'_1_concat,foldl_append,foldl_append,←ih (by omega),foldl_cons,foldl_nil,aesRound,
        stateOf_addRoundKey _ (by omega),stateOf_mixColumns,stateOf_shiftRows,stateOf_subBytes]
      rfl
  have hcipher : stateOf (aesEncryptBlock (expandKey key) inp) =
      cipher (stateOf key) (stateOf inp) := by
    rw [aesEncryptBlock,cipher,←hround 9 le_rfl,←stateOf_subBytes,←stateOf_shiftRows]
    exact stateOf_addRoundKey _ (n:=10) le_rfl
  rw [←hcipher,stateOf_injective.eq_iff,eq_comm]

end TinyDeviceOs.LinkCrypto
