import TinyDeviceOs.ArrayLoops
import TinyDeviceOs.HostCodec
import TinyDeviceOs.LinkCrypto

/-! AES-128-GCM as `scripts/link_codec.py` computes it, on byte arrays that are updated in place,
and its agreement with `link/link_crypto.c`. -/
namespace TinyDeviceOs.HostCrypto

open LittleEndian HostCodec ArrayLoops
open List hiding Vector
open LinkCrypto (Block Nonce)

def sboxTable : Bytes := [
  0x63,0x7c,0x77,0x7b,0xf2,0x6b,0x6f,0xc5,0x30,0x01,0x67,0x2b,0xfe,0xd7,0xab,0x76,
  0xca,0x82,0xc9,0x7d,0xfa,0x59,0x47,0xf0,0xad,0xd4,0xa2,0xaf,0x9c,0xa4,0x72,0xc0,
  0xb7,0xfd,0x93,0x26,0x36,0x3f,0xf7,0xcc,0x34,0xa5,0xe5,0xf1,0x71,0xd8,0x31,0x15,
  0x04,0xc7,0x23,0xc3,0x18,0x96,0x05,0x9a,0x07,0x12,0x80,0xe2,0xeb,0x27,0xb2,0x75,
  0x09,0x83,0x2c,0x1a,0x1b,0x6e,0x5a,0xa0,0x52,0x3b,0xd6,0xb3,0x29,0xe3,0x2f,0x84,
  0x53,0xd1,0x00,0xed,0x20,0xfc,0xb1,0x5b,0x6a,0xcb,0xbe,0x39,0x4a,0x4c,0x58,0xcf,
  0xd0,0xef,0xaa,0xfb,0x43,0x4d,0x33,0x85,0x45,0xf9,0x02,0x7f,0x50,0x3c,0x9f,0xa8,
  0x51,0xa3,0x40,0x8f,0x92,0x9d,0x38,0xf5,0xbc,0xb6,0xda,0x21,0x10,0xff,0xf3,0xd2,
  0xcd,0x0c,0x13,0xec,0x5f,0x97,0x44,0x17,0xc4,0xa7,0x7e,0x3d,0x64,0x5d,0x19,0x73,
  0x60,0x81,0x4f,0xdc,0x22,0x2a,0x90,0x88,0x46,0xee,0xb8,0x14,0xde,0x5e,0x0b,0xdb,
  0xe0,0x32,0x3a,0x0a,0x49,0x06,0x24,0x5c,0xc2,0xd3,0xac,0x62,0x91,0x95,0xe4,0x79,
  0xe7,0xc8,0x37,0x6d,0x8d,0xd5,0x4e,0xa9,0x6c,0x56,0xf4,0xea,0x65,0x7a,0xae,0x08,
  0xba,0x78,0x25,0x2e,0x1c,0xa6,0xb4,0xc6,0xe8,0xdd,0x74,0x1f,0x4b,0xbd,0x8b,0x8a,
  0x70,0x3e,0xb5,0x66,0x48,0x03,0xf6,0x0e,0x61,0x35,0x57,0xb9,0x86,0xc1,0x1d,0x9e,
  0xe1,0xf8,0x98,0x11,0x69,0xd9,0x8e,0x94,0x9b,0x1e,0x87,0xe9,0xce,0x55,0x28,0xdf,
  0x8c,0xa1,0x89,0x0d,0xbf,0xe6,0x42,0x68,0x41,0x99,0x2d,0x0f,0xb0,0x54,0xbb,0x16]

def rconTable : Bytes := [0x00,0x01,0x02,0x04,0x08,0x10,0x20,0x40,0x80,0x1b,0x36]

def sbox (x : UInt8) : UInt8 := sboxTable.getD x.toNat 0

def xtime (x : UInt8) : UInt8 :=
  byteOf ((x.toNat <<< 1) ^^^ (if x.toNat &&& 0x80 ≠ 0 then 0x1b else 0))

/-- Mixed in by every fourth round: rotated and substituted. -/
def rotateTemp (temp : Bytes) (i : ℕ) : Bytes :=
  let t := temp.getD 0 0
  let temp := temp.set 0 (sbox (temp.getD 1 0))
  let temp := temp.set 1 (sbox (temp.getD 2 0))
  let temp := temp.set 2 (sbox (temp.getD 3 0))
  let temp := temp.set 3 (sbox t)
  temp.set 0 (temp.getD 0 0 ^^^ rconTable.getD (i/4) 0)

def expandStep (rk : Bytes) (i : ℕ) : Bytes :=
  let temp := (rk.drop ((i-1)*4)).take 4
  let temp := if i%4 = 0 then rotateTemp temp i else temp
  (range 4).foldl (fun rk j => rk++[rk.getD ((i-4)*4+j) 0 ^^^ temp.getD j 0]) rk

def expandKey (key : Bytes) : Bytes := (range' 4 40).foldl expandStep key

/-- `_xor`, and `add_round` with an offset into the round keys. -/
def xorInto (a b : Bytes) : Bytes :=
  (range 16).foldl (fun a i => a.modify i (· ^^^ b.getD i 0)) a

def addRound (roundKey : Bytes) (rnd : ℕ) (state : Bytes) : Bytes :=
  xorInto state (roundKey.drop (rnd*16))

section

variable (state : Bytes)

def subState : Bytes :=
  (range 16).foldl (fun state i => state.modify i sbox) state

/-- A tuple assignment reads all its right sides first. -/
def shiftState : Bytes :=
  let s (i : ℕ) := state.getD i 0
  let state := (((state.set 1 (s 5)).set 5 (s 9)).set 9 (s 13)).set 13 (s 1)
  let state := (((state.set 2 (s 10)).set 6 (s 14)).set 10 (s 2)).set 14 (s 6)
  (((state.set 3 (s 15)).set 7 (s 3)).set 11 (s 7)).set 15 (s 11)

def mixStep (c : ℕ) : Bytes :=
  let a0 := state.getD (c*4) 0
  let a1 := state.getD (c*4+1) 0
  let a2 := state.getD (c*4+2) 0
  let a3 := state.getD (c*4+3) 0
  let state := state.set (c*4) (xtime a0 ^^^ (xtime a1 ^^^ a1) ^^^ a2 ^^^ a3)
  let state := state.set (c*4+1) (a0 ^^^ xtime a1 ^^^ (xtime a2 ^^^ a2) ^^^ a3)
  let state := state.set (c*4+2) (a0 ^^^ a1 ^^^ xtime a2 ^^^ (xtime a3 ^^^ a3))
  state.set (c*4+3) ((xtime a0 ^^^ a0) ^^^ a1 ^^^ a2 ^^^ xtime a3)

def mixState : Bytes := (range 4).foldl mixStep state

end

def encryptRound (roundKey state : Bytes) (rnd : ℕ) : Bytes :=
  addRound roundKey rnd (mixState (shiftState (subState state)))

def aesEncryptBlock (roundKey block : Bytes) : Bytes :=
  let state := (range' 1 9).foldl (encryptRound roundKey) (addRound roundKey 0 block)
  addRound roundKey 10 (shiftState (subState state))

def shiftRight (v : Bytes) : Bytes :=
  let lsb := v.getD 15 0 &&& 1
  let v := (range' 1 15).reverse.foldl (fun v i =>
    v.set i (byteOf (((v.getD i 0).toNat >>> 1) ||| ((v.getD (i-1) 0).toNat <<< 7)))) v
  let v := v.set 0 (byteOf ((v.getD 0 0).toNat >>> 1))
  if lsb ≠ 0 then v.set 0 (v.getD 0 0 ^^^ 0xe1) else v

def mulBit (byte : UInt8) (zv : Bytes × Bytes) (bit : ℕ) : Bytes × Bytes :=
  (if byte.toNat &&& (1 <<< (7-bit)) ≠ 0 then xorInto zv.1 zv.2 else zv.1,shiftRight zv.2)

def gcmMul (x h : Bytes) : Bytes :=
  ((range 16).foldl (fun zv i => (range 8).foldl (mulBit (x.getD i 0)) zv)
    (replicate 16 0,h)).1

/-- The loop of `_ghash_cont` from the offset `off` on. -/
def ghashFrom (h data : Bytes) (off : ℕ) (out : Bytes) : Bytes :=
  if data.length ≤ off then out
  else
    let chunk := (data.drop off).take 16
    ghashFrom h data (off+16)
      (gcmMul (xorInto out (chunk++replicate (16-chunk.length) 0)) h)
termination_by data.length-off

def ghashCont (h y data : Bytes) : Bytes := ghashFrom h data 0 y

/-- It stops at the first byte that does not wrap. -/
def carry : List ℕ → Bytes → Bytes
  | [], counter => counter
  | i::is, counter =>
    let counter := counter.set i (byteOf ((counter.getD i 0).toNat+1))
    if counter.getD i 0 ≠ 0 then counter else carry is counter

/-- The counter-mode loop from the offset `off` on. -/
def streamFrom (rk text : Bytes) (off : ℕ) (counter out : Bytes) : Bytes :=
  if text.length ≤ off then out
  else
    let counter := carry [15,14,13,12] counter
    let stream := aesEncryptBlock rk counter
    streamFrom rk text (off+16) counter
      (out++zipWith (· ^^^ ·) ((text.drop off).take 16) stream)
termination_by text.length-off

/-- `none` is the `OverflowError`. -/
def toBytesBig (n : ℕ) : Option Bytes := if n < 256^8 then some (toBytes 8 n).reverse else none

def startCounter (nonce : Bytes) : Bytes := (nonce++(replicate 16 0).drop 12).set 15 1

def tagOf (rk h j0 aad ct : Bytes) : Option Bytes := do
  let y := replicate 16 0
  let y := if aad = [] then y else ghashCont h y aad
  let y := if ct = [] then y else ghashCont h y ct
  let aadBits ← toBytesBig (aad.length*8)
  let ctBits ← toBytesBig (ct.length*8)
  return zipWith (· ^^^ ·) (ghashCont h y (aadBits++ctBits)) (aesEncryptBlock rk j0)

def aesgcmEncrypt (key nonce aad pt : Bytes) : Option (Bytes × Bytes) := do
  let rk := expandKey key
  let h := aesEncryptBlock rk (replicate 16 0)
  let j0 := startCounter nonce
  let ct := streamFrom rk pt 0 j0 []
  let tag ← tagOf rk h j0 aad ct
  return (ct,tag)

/-- The inner `none` is the `None` for a wrong tag. -/
def aesgcmDecrypt (key nonce aad ct tag : Bytes) : Option (Option Bytes) := do
  let rk := expandKey key
  let h := aesEncryptBlock rk (replicate 16 0)
  let j0 := startCounter nonce
  let expect ← tagOf rk h j0 aad ct
  let diff := (zipWith (· ^^^ ·) expect tag).foldl (· ||| ·) 0
  return if diff ≠ 0 then none else some (streamFrom rk ct 0 j0 [])

theorem block_cases (b : Block) : b = #v[b.get 0,b.get 1,b.get 2,b.get 3,b.get 4,b.get 5,b.get 6,
    b.get 7,b.get 8,b.get 9,b.get 10,b.get 11,b.get 12,b.get 13,b.get 14,b.get 15] := by
  ext i hi
  interval_cases i <;> rfl

theorem toList_ofBytes (h : bs.length = 16) : (Block.ofBytes bs).toList = bs := by
  apply ext_getElem (by simp [h])
  intro i h₁ h₂
  simp [Block.ofBytes,h₂]

theorem ofBytes_toList : Block.ofBytes b.toList = b := by
  simpa using Block.ofBytes_toList_append []

theorem ofBytes_padded : Block.ofBytes (bs++replicate n 0) = Block.ofBytes bs := by
  ext i hi
  simp only [Block.ofBytes,Vector.getElem_ofFn]
  by_cases h : i < bs.length
  · rw [getD_append _ _ _ _ h]
  · rw [getD_append_right _ _ _ _ (not_lt.mp h),getD_eq_default bs _ (not_lt.mp h)]
    by_cases hn : i-bs.length < n
    · simp [hn]
    · rw [getD_eq_default _ _ (by simpa using hn)]

theorem sbox_eq : sbox x = LinkCrypto.sub x := rfl

theorem xtime_eq : xtime x = LinkCrypto.xtime x := by
  have htest : x.toNat &&& 0x80 ≠ 0 ↔ x &&& 0x80 ≠ 0 := by
    rw [not_iff_not,← UInt8.toNat_inj]
    simp
  have hshift : UInt8.ofNat (x.toNat <<< 1) = x <<< 1 := by
    apply UInt8.toNat_inj.mp
    simp
  rw [xtime,LinkCrypto.xtime,byteOf_eq,UInt8.ofNat_xor,hshift]
  by_cases h : x &&& 0x80 ≠ 0
  · rw [if_pos (htest.mpr h),if_pos h]
    rfl
  · rw [if_neg (fun h' => h (htest.mp h')),if_neg h]
    rfl

theorem xorInto_eq (b : Block) (c : Bytes) :
    xorInto b.toList c = (LinkCrypto.xorBlock b (Block.ofBytes c)).toList := by
  have hl : b.toList.length = 16 := Vector.length_toList
  have hloop := foldl_modify (fun i x => x ^^^ c.getD i 0) b.toList
  rw [hl] at hloop
  rw [xorInto,hloop]
  apply ext_getElem (by simp)
  intro i h₁ h₂
  simp [LinkCrypto.xorBlock,Block.ofBytes]

theorem addRound_eq : addRound roundKey rnd b.toList = (LinkCrypto.addRoundKey b roundKey
    (rnd*16)).toList :=
  xorInto_eq ..

theorem subState_eq : subState b.toList = (LinkCrypto.subBytes b).toList := by
  have hl : b.toList.length = 16 := Vector.length_toList
  have hloop := foldl_modify (fun _ => sbox) b.toList
  rw [hl] at hloop
  rw [subState,hloop]
  apply ext_getElem (by simp)
  intro i h₁ h₂
  simp [LinkCrypto.subBytes,sbox_eq]

theorem shiftState_eq : shiftState b.toList = (LinkCrypto.shiftRows b).toList := by
  rw [block_cases b]
  rfl

theorem mixColumn_length : (LinkCrypto.mixColumn a0 a1 a2 a3).length = 4 := by
  simp only [LinkCrypto.mixColumn,length_cons,length_nil]

theorem mixStep_append (before after : Bytes) (a0 a1 a2 a3 : UInt8) (h : before.length = c*4) :
    mixStep (before++a0::a1::a2::a3::after) c =
      before++LinkCrypto.mixColumn a0 a1 a2 a3++after := by
  rw [mixStep,←h]
  simp [LinkCrypto.mixColumn,xtime_eq]

theorem mixState_columns : mixState [a0,a1,a2,a3,b0,b1,b2,b3,c0,c1,c2,c3,d0,d1,d2,d3] =
    LinkCrypto.mixColumn a0 a1 a2 a3++LinkCrypto.mixColumn b0 b1 b2 b3++ LinkCrypto.mixColumn c0
    c1 c2 c3++LinkCrypto.mixColumn d0 d1 d2 d3 := by
  have hrange : range 4 = [0,1,2,3] := rfl
  have hfirst := mixStep_append [] [b0,b1,b2,b3,c0,c1,c2,c3,d0,d1,d2,d3] a0 a1 a2 a3 (c:=0) rfl
  rw [nil_append,nil_append] at hfirst
  rw [mixState,hrange,foldl_cons,hfirst,foldl_cons,
    mixStep_append _ _ _ _ _ _ (by rw [mixColumn_length]),foldl_cons,
    mixStep_append _ _ _ _ _ _ (by rw [length_append,mixColumn_length,mixColumn_length]),
    foldl_cons,
    mixStep_append _ _ _ _ _ _ (by
      rw [length_append,length_append,mixColumn_length,mixColumn_length,
        mixColumn_length]),
    foldl_nil,append_nil]

theorem mixState_eq : mixState b.toList = (LinkCrypto.mixColumns b).toList := by
  have hl : (LinkCrypto.mixColumn b[0] b[1] b[2] b[3]++LinkCrypto.mixColumn b[4] b[5] b[6] b[7]++
      LinkCrypto.mixColumn b[8] b[9] b[10] b[11]++
      LinkCrypto.mixColumn b[12] b[13] b[14] b[15]).length = 16 := by
    simp only [length_append,mixColumn_length]
  rw [LinkCrypto.mixColumns,toList_ofBytes hl,←mixState_columns]
  have hb : b.toList = [b[0],b[1],b[2],b[3],b[4],b[5],b[6],b[7],b[8],b[9],b[10],b[11],b[12],b[13],
      b[14],b[15]] := congrArg Vector.toList (block_cases b)
  exact congrArg mixState hb

theorem aesEncryptBlock_eq : aesEncryptBlock roundKey b.toList = (LinkCrypto.aesEncryptBlock
    roundKey b).toList := by
  have hround (b : Block) (rnd : ℕ) : encryptRound roundKey b.toList rnd =
      (LinkCrypto.aesRound roundKey b rnd).toList := by
    rw [encryptRound,subState_eq,shiftState_eq,mixState_eq,addRound_eq]
    rfl
  have hloop (start : Block) : (range' 1 9).foldl (encryptRound roundKey) start.toList =
      ((range' 1 9).foldl (LinkCrypto.aesRound roundKey) start).toList :=
    foldl_hom Vector.toList hround
  rw [aesEncryptBlock,addRound_eq,zero_mul,hloop,subState_eq,shiftState_eq,addRound_eq]
  rfl

theorem shifted_byte (a b : UInt8) :
    byteOf ((a.toNat >>> 1) ||| (b.toNat <<< 7)) = (a >>> 1) ||| (b <<< 7) := by
  apply UInt8.toNat_inj.mp
  rw [byteOf_eq,UInt8.toNat_ofNat',Nat.or_mod_two_pow]
  simp only [UInt8.toNat_or,UInt8.toNat_shiftRight,UInt8.toNat_shiftLeft,UInt8.reduceToNat,
    Nat.reduceMod]
  have ha := a.toNat_lt
  rw [Nat.mod_eq_of_lt (a:=a.toNat >>> 1) (by rw [Nat.shiftRight_eq_div_pow]; omega)]

theorem shifted_first (a : UInt8) : byteOf (a.toNat >>> 1) = a >>> 1 := by
  have h := shifted_byte a 0
  simpa using h

theorem shiftRight_eq (v : Block) :
    shiftRight v.toList = (LinkCrypto.shiftRightBlock v).toList := by
  have hl : v.toList.length = 16 := Vector.length_toList
  have hv (i : ℕ) (hi : i < 16) : v.toList.getD i 0 = v[i] := by simp [hi]
  set w : Block := Vector.ofFn fun i =>
    if i = 0 then v[0] >>> 1 else (v[i] >>> 1) ||| (v.toList.getD (i-1) 0 <<< 7) with hw
  let loop := shiftLoop (fun a b : UInt8 => (a >>> 1) ||| (b <<< 7)) 0 15 v.toList
  have hloop : loop.length = 16 := (shiftLoop_length _ _ _ _).trans hl
  have hget (j : ℕ) := shiftLoop_getD (fun a b : UInt8 => (a >>> 1) ||| (b <<< 7)) 0 15 j v.toList
    (by rw [hl]; omega)
  have hw0 : w.toList.getD 0 0 = w[0] := by simp
  have hlist : loop.set 0 (loop.getD 0 0 >>> 1) = w.toList := by
    apply ext_getElem (by simp [hloop])
    intro j h₁ h₂
    have hj : j < 16 := by simpa using h₂
    rw [←getD_eq_getElem _ 0 h₁,getD_set 0 _ _ _ _ (by omega),hget,hget,hv 0 (by omega)]
    by_cases h0 : j = 0
    · subst h0
      simp [hw]
    · simp [hw,h0,Ne.symm h0,Nat.le_of_lt_succ hj,hj]
  have hbody : shiftRight v.toList = if v[15] &&& 1 ≠ 0 then
      (loop.set 0 (loop.getD 0 0 >>> 1)).set 0
        ((loop.set 0 (loop.getD 0 0 >>> 1)).getD 0 0 ^^^ 0xe1)
      else loop.set 0 (loop.getD 0 0 >>> 1) := by
    simp only [shiftRight,shifted_byte,shifted_first,hv 15 (by omega)]
    rfl
  rw [hbody,hlist,hw0,LinkCrypto.shiftRightBlock,←hw]
  split_ifs
  · rw [Vector.toList_set]
  · rfl

theorem mulBit_eq : mulBit byte (zv.1.toList,zv.2.toList) bit = ((LinkCrypto.gcmBit byte zv
    bit).1.toList,(LinkCrypto.gcmBit byte zv bit).2.toList) := by
  have hbit : 7-bit < 8 := by omega
  have hone : ((1 : UInt8) <<< UInt8.ofNat (7-bit)).toNat = 1 <<< (7-bit) := by
    generalize 7-bit = k at hbit
    interval_cases k <;> rfl
  have htest : byte.toNat &&& (1 <<< (7-bit)) ≠ 0 ↔ byte &&& (1 <<< UInt8.ofNat (7-bit)) ≠ 0 := by
    rw [not_iff_not,←UInt8.toNat_inj,UInt8.toNat_and,hone]
    rfl
  rw [mulBit,LinkCrypto.gcmBit,shiftRight_eq]
  by_cases h : byte &&& (1 <<< UInt8.ofNat (7-bit)) ≠ 0
  · rw [if_pos (htest.mpr h),if_pos h,xorInto_eq,ofBytes_toList]
  · rw [if_neg (fun h' => h (htest.mp h')),if_neg h]

theorem gcmMul_eq : gcmMul x.toList h.toList = (LinkCrypto.gcmMul x h).toList := by
  let pair (zv : Block × Block) : Bytes × Bytes := (zv.1.toList,zv.2.toList)
  have hbyte (zv : Block × Block) (byte : UInt8) :
      (range 8).foldl (mulBit byte) (pair zv) =
        pair ((range 8).foldl (LinkCrypto.gcmBit byte) zv) :=
    foldl_hom pair fun zv bit => mulBit_eq
  have hbytes (zv : Block × Block) :
      x.toList.foldl (fun zv byte => (range 8).foldl (mulBit byte) zv) (pair zv) =
        pair (x.toList.foldl (fun zv byte => (range 8).foldl (LinkCrypto.gcmBit byte) zv) zv) :=
    foldl_hom pair hbyte
  have hloop := foldl_range_getD (fun zv byte => (range 8).foldl (mulBit byte) zv) 0 x.toList
    (pair (Vector.replicate 16 0,h))
  rw [hbytes,Vector.length_toList] at hloop
  exact congrArg Prod.fst hloop

theorem ghashFrom_eq (h : Block) (data : Bytes) (off : ℕ) (y : Block) :
    ghashFrom h.toList data off y.toList = (LinkCrypto.ghashUpdate h y (data.drop off)).toList := by
  induction hn : data.length-off using Nat.strong_induction_on generalizing off y with
  | _ n ih =>
    rw [ghashFrom,LinkCrypto.ghashUpdate]
    by_cases hoff : data.length ≤ off
    · rw [if_pos hoff,if_pos (drop_eq_nil_of_le hoff)]
    · have hne : data.drop off ≠ [] := by
        rw [ne_eq,drop_eq_nil_iff]
        exact hoff
      rw [if_neg hoff,if_neg hne]
      simp only [xorInto_eq,ofBytes_padded,gcmMul_eq]
      rw [ih _ (by omega) (off+16) _ rfl,drop_drop]

theorem carry_eq (is : List (Fin 16)) (counter : Block) :
    carry (is.map Fin.val) counter.toList = (LinkCrypto.incBytes is counter).toList := by
  induction is generalizing counter with
  | nil => rfl
  | cons i is ih =>
    have hbyte : byteOf ((counter.toList.getD i.val 0).toNat+1) = counter[i]+1 := by
      rw [byteOf_eq,UInt8.ofNat_add,UInt8.ofNat_toNat]
      simp
    have hset : counter.toList.set i.val (counter[i]+1) = (counter.set i (counter[i]+1)).toList :=
      (Vector.toList_set ..).symm
    have hget : (counter.set i (counter[i]+1)).toList.getD i.val 0 =
        (counter.set i (counter[i]+1))[i] := by simp
    rw [map_cons,carry,LinkCrypto.incBytes]
    simp only [hbyte,hset,hget,ih]
    split_ifs <;> rfl

theorem streamFrom_eq (rk text : Bytes) (off : ℕ) (counter : Block) (out : Bytes) :
    streamFrom rk text off counter.toList out =
      out++LinkCrypto.ctrXor rk counter (text.drop off) := by
  induction hn : text.length-off using Nat.strong_induction_on generalizing off counter out with
  | _ n ih =>
    rw [streamFrom]
    by_cases hoff : text.length ≤ off
    · rw [if_pos hoff,drop_eq_nil_of_le hoff,LinkCrypto.ctrXor_nil,append_nil]
    · have hne : text.drop off ≠ [] := by
        rw [ne_eq,drop_eq_nil_iff]
        exact hoff
      have hinc : carry [15,14,13,12] counter.toList = (LinkCrypto.inc32 counter).toList :=
        carry_eq [15,14,13,12] counter
      rw [if_neg hoff]
      simp only [hinc]
      rw [ih _ (by omega) (off+16) _ _ rfl,aesEncryptBlock_eq,LinkCrypto.ctrXor_cons hne,
        drop_drop,append_assoc]

theorem take_four {rk : Bytes} {n : ℕ} (h : n+4 ≤ rk.length) :
    (rk.drop n).take 4 = [rk.getD n 0,rk.getD (n+1) 0,rk.getD (n+2) 0,rk.getD (n+3) 0] := by
  apply ext_getElem
  · simp only [length_take,length_drop,length_cons,length_nil]
    omega
  · intro i h₁ h₂
    simp only [length_cons,length_nil] at h₂
    have hi : n+i < rk.length := by omega
    rw [getElem_take,getElem_drop,←getD_eq_getElem rk 0 hi]
    interval_cases i <;> rfl

theorem expandStep_eq {rk : Bytes} {i : ℕ} (hi : 4 ≤ i) (hl : rk.length = 4*i) :
    expandStep rk i = LinkCrypto.expandKeyStep rk i := by
  have htemp : (if i%4 = 0 then rotateTemp ((rk.drop ((i-1)*4)).take 4) i
      else (rk.drop ((i-1)*4)).take 4) = LinkCrypto.keyTemp rk i := by
    rw [take_four (by omega),LinkCrypto.keyTemp]
    rfl
  have hgrow (extra : Bytes) (j : ℕ) (hj : j < 4) :
      (rk++extra).getD ((i-4)*4+j) 0 = rk.getD ((i-4)*4+j) 0 :=
    getD_append _ _ _ _ (by omega)
  simp only [expandStep,htemp,LinkCrypto.expandKeyStep]
  have hrange : range 4 = [0,1,2,3] := rfl
  simp only [hrange,foldl_cons,foldl_nil,map_cons,map_nil,append_assoc]
  rw [hgrow _ 1 (by omega),hgrow _ 2 (by omega),hgrow _ 3 (by omega)]
  rfl

theorem expandKeyStep_length : (LinkCrypto.expandKeyStep rk i).length = rk.length+4 := by
  simp [LinkCrypto.expandKeyStep]

theorem foldl_expandStep (n i : ℕ) (rk : Bytes) (hi : 4 ≤ i) (hl : rk.length = 4*i) :
    (range' i n).foldl expandStep rk =
      (range' i n).foldl LinkCrypto.expandKeyStep rk := by
  induction n generalizing i rk with
  | zero => rfl
  | succ n ih =>
    rw [range'_succ,foldl_cons,foldl_cons,expandStep_eq hi hl]
    exact ih (i+1) _ (by omega) (by rw [expandKeyStep_length,hl]; omega)

theorem expandKey_eq : expandKey key.toList = LinkCrypto.expandKey key :=
  foldl_expandStep 40 4 key.toList (le_refl 4) Vector.length_toList

theorem startCounter_eq : startCounter nonce.toList = (LinkCrypto.initialCounter nonce).toList := by
  have hl : nonce.toList.length = 12 := Vector.length_toList
  rw [startCounter,LinkCrypto.initialCounter,toList_ofBytes (by simp),
    set_append_right _ _ (by omega),hl]
  rfl

theorem toBytesBig_eq (h : n*8 < 2^64) : toBytesBig (n*8) = some (LinkCrypto.putBe64
    (UInt64.ofNat n*8)) := by
  have hn : (UInt64.ofNat n*8).toNat = n*8 := by
    simp only [UInt64.toNat_mul,UInt64.toNat_ofNat',UInt64.reduceToNat]
    omega
  have hle : LinkCrypto.putBe64 (UInt64.ofNat n*8) = (le64 (UInt64.ofNat n*8)).reverse := by
    generalize UInt64.ofNat n*8 = w
    have hmask (x : UInt64) : (x &&& 0xff).toUInt8 = x.toUInt8 := by
      apply UInt8.toNat_inj.mp
      simp [and_255]
    have hzero : w >>> 0 = w := by simp
    simp only [le64,hmask]
    change [_,_,_,_,_,_,_,(w >>> 0).toUInt8] = _
    rw [hzero]
    rfl
  rw [toBytesBig,if_pos (by omega),hle,le64_eq,hn]

theorem tagOf_eq (ha : aad.length*8 < 2^64) (hc : ct.length*8 < 2^64) : tagOf rk h.toList
    j0.toList aad ct = some (LinkCrypto.gcmTag rk h j0 aad ct).toList := by
  have hpart (y : Block) (data : Bytes) :
      (if data = [] then y.toList else ghashCont h.toList y.toList data) =
        (LinkCrypto.ghashUpdate h y data).toList := by
    by_cases hd : data = []
    · rw [if_pos hd,LinkCrypto.ghashUpdate,if_pos hd]
    · rw [if_neg hd,ghashCont,ghashFrom_eq,drop_zero]
  have hzero : replicate 16 (0 : UInt8) = (Vector.replicate 16 0).toList := rfl
  simp only [tagOf,toBytesBig_eq ha,toBytesBig_eq hc,Option.bind_eq_bind,Option.bind_some,
    hzero,hpart,aesEncryptBlock_eq]
  rw [ghashCont,ghashFrom_eq,drop_zero]
  simp [LinkCrypto.gcmTag,LinkCrypto.xorBlock]

section

variable (key : Block) (nonce : Nonce) {aad text : Bytes} (ha : aad.length*8 < 2^64)
    (ht : text.length*8 < 2^64)
include ha ht

/-- On every length whose number of bits fits eight bytes. -/
theorem aesgcmEncrypt_eq : aesgcmEncrypt key.toList nonce.toList aad text =
    some ((LinkCrypto.linkAesgcmEncrypt key nonce aad text).1,
      (LinkCrypto.linkAesgcmEncrypt key nonce aad text).2.toList) := by
  have hzero : replicate 16 (0 : UInt8) = (Vector.replicate 16 0).toList := rfl
  simp only [aesgcmEncrypt,expandKey_eq,hzero,aesEncryptBlock_eq,startCounter_eq,streamFrom_eq,
    nil_append,drop_zero]
  rw [tagOf_eq ha (by rw [LinkCrypto.ctrXor_length]; exact ht)]
  rfl

theorem aesgcmDecrypt_eq (tag : Block) : aesgcmDecrypt key.toList nonce.toList aad text tag.toList =
    some (LinkCrypto.linkAesgcmDecrypt key nonce aad text tag) := by
  have hzero : replicate 16 (0 : UInt8) = (Vector.replicate 16 0).toList := rfl
  simp only [aesgcmDecrypt,expandKey_eq,hzero,aesEncryptBlock_eq,startCounter_eq,streamFrom_eq,
    nil_append,drop_zero]
  rw [tagOf_eq ha ht]
  rfl

end

theorem aesgcmEncrypt_length {key : Block} {nonce : Nonce} {aad text ct tag : Bytes}
    (h : aesgcmEncrypt key.toList nonce.toList aad text = some (ct,tag)) :
    ct.length = text.length ∧ tag.length = 16 := by
  have hbits : aad.length*8 < 2^64 ∧ text.length*8 < 2^64 := by
    have hbig {n : ℕ} {bs : Bytes} (hn : toBytesBig n = some bs) : n < 2^64 := by
      rw [toBytesBig,Option.ite_none_right_eq_some] at hn
      exact hn.1
    simp only [aesgcmEncrypt,startCounter_eq,streamFrom_eq,nil_append,drop_zero] at h
    obtain ⟨t,htag,-⟩ := Option.bind_eq_some_iff.mp h
    obtain ⟨aadBits,haad,hrest⟩ := Option.bind_eq_some_iff.mp htag
    obtain ⟨ctBits,hct,-⟩ := Option.bind_eq_some_iff.mp hrest
    rw [LinkCrypto.ctrXor_length] at hct
    exact ⟨hbig haad,hbig hct⟩
  rw [aesgcmEncrypt_eq key nonce hbits.1 hbits.2,Option.some.injEq,Prod.mk.injEq] at h
  rw [←h.1,←h.2,LinkCrypto.linkAesgcmEncrypt_length,Vector.length_toList]
  exact ⟨rfl,rfl⟩

end TinyDeviceOs.HostCrypto
