import TinyDeviceOs.LittleEndian

/-! AES-128-GCM as `link/link_crypto.c` computes it. A block is a vector of sixteen bytes; the
round keys and the data are byte lists, and all pointers are present. -/
namespace TinyDeviceOs.LinkCrypto

open LittleEndian
open List hiding Vector

abbrev Block := Vector UInt8 16

abbrev Nonce := Vector UInt8 12

/-- Zeroed, with the bytes copied to its start. -/
def Block.ofBytes (bs : Bytes) : Block := Vector.ofFn fun i => bs.getD i 0

theorem Block.ofBytes_toList_append (rest : Bytes) : Block.ofBytes (b.toList++rest) = b := by
  ext i hi
  simp [Block.ofBytes,getElem?_append_left (show i < b.toList.length by simpa using hi),hi]

def kSbox : Bytes := [
  0x63,0x7c,0x77,0x7b,0xf2,0x6b,0x6f,0xc5,0x30,0x01,0x67,0x2b,0xfe,0xd7,0xab,0x76,
   0xca,0x82,0xc9,0x7d,0xfa,0x59,0x47,0xf0,0xad,0xd4,0xa2,0xaf,0x9c,0xa4,0x72,0xc0,
   0xb7,0xfd,0x93,0x26,0x36,0x3f,0xf7,0xcc,0x34,0xa5,0xe5,0xf1,0x71,0xd8,0x31,0x15,
   0x04,0xc7,0x23,0xc3,0x18,0x96,0x05,0x9a,0x07,0x12,0x80,0xe2,0xeb,0x27,0xb2,0x75,
   0x09,0x83,0x2c,0x1a,0x1b,0x6e,0x5a,0xa0,0x52,0x3b,0xd6,0xb3,0x29,0xe3,0x2f,0x84,
   0x53,0xd1,0x00,0xed,0x20,0xfc,0xb1,0x5b,0x6a,0xcb,0xbe,0x39,0x4a,0x4c,0x58,0xcf,
   0xd0,0xef,0xaa,0xfb,0x43,0x4d,0x33,0x85,0x45,0xf9,0x02,0x7f,0x50,0x3c,0x9f,0xa8,
   0x51,0xa3,0x40,0x8f,0x92,0x9d,0x38,0xf5,0xbc,0xb6,0xda,0x21,0x10,0xff,0xf3,0xd2,
   0xcd,0x0c,0x13,0xec,0x5f,0x97,0x44,0x17,0xc4,0xa7,0x7e,0x3d,0x64,0x5d,0x19,0x73,
   0x60,0x81,0x4f,0xdc,0x22,0x2a,0x90,0x88,0x46,0xee,0xb8,0x14,0xde,0x5e,0x0b,0xdb,
   0xe0,0x32,0x3a,0x0a,0x49,0x06,0x24,0x5c,0xc2,0xd3,0xac,0x62,0x91,0x95,0xe4,0x79,
   0xe7,0xc8,0x37,0x6d,0x8d,0xd5,0x4e,0xa9,0x6c,0x56,0xf4,0xea,0x65,0x7a,0xae,0x08,
   0xba,0x78,0x25,0x2e,0x1c,0xa6,0xb4,0xc6,0xe8,0xdd,0x74,0x1f,0x4b,0xbd,0x8b,0x8a,
   0x70,0x3e,0xb5,0x66,0x48,0x03,0xf6,0x0e,0x61,0x35,0x57,0xb9,0x86,0xc1,0x1d,0x9e,
   0xe1,0xf8,0x98,0x11,0x69,0xd9,0x8e,0x94,0x9b,0x1e,0x87,0xe9,0xce,0x55,0x28,0xdf,
   0x8c,0xa1,0x89,0x0d,0xbf,0xe6,0x42,0x68,0x41,0x99,0x2d,0x0f,0xb0,0x54,0xbb,0x16]

def kRcon : Bytes := [0x00,0x01,0x02,0x04,0x08,0x10,0x20,0x40,0x80,0x1b,0x36]

def sub (x : UInt8) : UInt8 := kSbox.getD x.toNat 0

def xtime (x : UInt8) : UInt8 := (x <<< 1) ^^^ (if x &&& 0x80 ≠ 0 then 0x1b else 0)

section

variable (roundKey : Bytes)

/-- What round `i` mixes into the key four words back. -/
def keyTemp (i : ℕ) : Bytes :=
  let t (j : ℕ) := roundKey.getD ((i-1)*4+j) 0
  if i%4 = 0 then
    [sub (t 1) ^^^ kRcon.getD (i/4) 0,sub (t 2),sub (t 3),sub (t 0)]
  else [t 0,t 1,t 2,t 3]

def expandKeyStep (i : ℕ) : Bytes :=
  roundKey++(range 4).map fun j =>
    roundKey.getD ((i-4)*4+j) 0 ^^^ (keyTemp roundKey i).getD j 0

/-- They grow word by word from the cipher key. -/
def expandKey (key : Block) : Bytes := (range' 4 40).foldl expandKeyStep key.toList

def xorBlock (dst src : Block) : Block := Vector.zipWith (· ^^^ ·) dst src

/-- With the sixteen bytes from `start` on. -/
def addRoundKey (state : Block) (roundKey : Bytes) (start : ℕ) : Block :=
  xorBlock state (Block.ofBytes (roundKey.drop start))

def subBytes (state : Block) : Block := state.map sub

def shiftRows (s : Block) : Block :=
  #v[s[0],s[5],s[10],s[15],s[4],s[9],s[14],s[3],s[8],s[13],s[2],s[7],s[12],s[1],s[6],s[11]]

def mixColumn (a0 a1 a2 a3 : UInt8) : Bytes :=
  [xtime a0 ^^^ (xtime a1 ^^^ a1) ^^^ a2 ^^^ a3,
    a0 ^^^ xtime a1 ^^^ (xtime a2 ^^^ a2) ^^^ a3,
    a0 ^^^ a1 ^^^ xtime a2 ^^^ (xtime a3 ^^^ a3),
    (xtime a0 ^^^ a0) ^^^ a1 ^^^ a2 ^^^ xtime a3]

def mixColumns (s : Block) : Block :=
  Block.ofBytes (mixColumn s[0] s[1] s[2] s[3]++mixColumn s[4] s[5] s[6] s[7]++
    mixColumn s[8] s[9] s[10] s[11]++mixColumn s[12] s[13] s[14] s[15])

def aesRound (state : Block) (round : ℕ) : Block :=
  addRoundKey (mixColumns (shiftRows (subBytes state))) roundKey (round*16)

def aesEncryptBlock (inp : Block) : Block :=
  let state := (range' 1 9).foldl (aesRound roundKey) (addRoundKey inp roundKey 0)
  addRoundKey (shiftRows (subBytes state)) roundKey 160

/-- Downwards, so each byte reads its neighbour's old value. -/
def shiftRightBlock (v : Block) : Block :=
  let shifted : Block := Vector.ofFn fun i =>
    if i = 0 then v[0] >>> 1 else (v[i] >>> 1) ||| (v.toList.getD (i-1) 0 <<< 7)
  if v[15] &&& 1 ≠ 0 then shifted.set 0 (shifted[0] ^^^ 0xe1) else shifted

def gcmBit (byte : UInt8) (zv : Block × Block) (bit : ℕ) : Block × Block :=
  (if byte &&& (1 <<< UInt8.ofNat (7-bit)) ≠ 0 then xorBlock zv.1 zv.2 else zv.1,
    shiftRightBlock zv.2)

def gcmMul (x h : Block) : Block :=
  (x.toList.foldl (fun zv byte => (range 8).foldl (gcmBit byte) zv)
    (Vector.replicate 16 0,h)).1

def ghashUpdate (h y : Block) (data : Bytes) : Block :=
  if data = [] then y
  else ghashUpdate h (gcmMul (xorBlock y (Block.ofBytes (data.take 16))) h) (data.drop 16)
termination_by data.length
decreasing_by
  have hp := length_pos_iff.mpr (by assumption : data ≠ [])
  rw [length_drop]
  omega

def putBe64 (value : UInt64) : Bytes :=
  (range 8).map fun i => (value >>> UInt64.ofNat (8*(7-i))).toUInt8

/-- The carry loop, over the positions still to visit. -/
def incBytes : List (Fin 16) → Block → Block
  | [], counter => counter
  | i::is, counter =>
    let next := counter.set i (counter[i]+1)
    if next[i] ≠ 0 then next else incBytes is next

def inc32 (counter : Block) : Block := incBytes [15,14,13,12] counter

def gcmTag (h j0 : Block) (aad ct : Bytes) : Block :=
  let y := ghashUpdate h (ghashUpdate h (Vector.replicate 16 0) aad) ct
  let lengths := putBe64 (UInt64.ofNat aad.length*8)++putBe64 (UInt64.ofNat ct.length*8)
  xorBlock (ghashUpdate h y lengths) (aesEncryptBlock roundKey j0)

end

def ctrXor (roundKey : Bytes) (counter : Block) (inp : Bytes) : Bytes :=
  if inp = [] then []
  else
    zipWith (· ^^^ ·) (inp.take 16) (aesEncryptBlock roundKey (inc32 counter)).toList++
      ctrXor roundKey (inc32 counter) (inp.drop 16)
termination_by inp.length
decreasing_by
  have hp := length_pos_iff.mpr (by assumption : inp ≠ [])
  rw [length_drop]
  omega

def initialCounter (nonce : Nonce) : Block := Block.ofBytes (nonce.toList++[0,0,0,1])

def linkAesgcmEncrypt (key : Block) (nonce : Nonce) (aad pt : Bytes) : Bytes × Block :=
  let roundKey := expandKey key
  let h := aesEncryptBlock roundKey (Vector.replicate 16 0)
  let j0 := initialCounter nonce
  let ct := ctrXor roundKey j0 pt
  (ct,gcmTag roundKey h j0 aad ct)

/-- Accumulated without an early exit. -/
def tagDiff (expect tag : Block) : UInt8 :=
  (zipWith (· ^^^ ·) expect.toList tag.toList).foldl (· ||| ·) 0

def linkAesgcmDecrypt (key : Block) (nonce : Nonce) (aad ct : Bytes) (tag : Block) :
    Option Bytes :=
  let roundKey := expandKey key
  let h := aesEncryptBlock roundKey (Vector.replicate 16 0)
  let j0 := initialCounter nonce
  if tagDiff (gcmTag roundKey h j0 aad ct) tag ≠ 0 then none
  else some (ctrXor roundKey j0 ct)

/-- The result and the output buffer, which is written only after the tag was compared. -/
def linkAesgcmDecryptTo (pt : Bytes) (key : Block) (nonce : Nonce) (aad ct : Bytes) (tag : Block) :
    Int32 × Bytes :=
  match linkAesgcmDecrypt key nonce aad ct tag with
  | none => (-1,pt)
  | some text => (0,text++pt.drop ct.length)

/-- The vector of an empty plaintext under the zero key, as in the unit tests. -/
example : (linkAesgcmEncrypt (Vector.replicate 16 0) (Vector.replicate 12 0) [] []).2 =
    #v[0x58,0xe2,0xfc,0xce,0xfa,0x7e,0x30,0x61,0x36,0x7f,0x1d,0x57,0xa4,0xe7,0x45,0x5a] := by
  decide +kernel

variable (roundKey : Bytes) (counter : Block)

@[simp] theorem ctrXor_nil : ctrXor roundKey counter [] = [] := by
  rw [ctrXor,if_pos rfl]

theorem ctrXor_cons {roundKey : Bytes} {counter : Block} {inp : Bytes} (h : inp ≠ []) :
    ctrXor roundKey counter inp =
      zipWith (· ^^^ ·) (inp.take 16) (aesEncryptBlock roundKey (inc32 counter)).toList++
        ctrXor roundKey (inc32 counter) (inp.drop 16) := by
  rw [ctrXor,if_neg h]

@[simp] theorem ctrXor_length (inp : Bytes) : (ctrXor roundKey counter inp).length = inp.length := by
  fun_induction ctrXor roundKey counter inp with
  | case1 => rfl
  | case2 counter inp h ih =>
    rw [length_append,ih,length_zipWith,length_take,length_drop,
      Vector.length_toList]
    omega

theorem zipWith_xor_cancel {data stream : Bytes} (h : data.length ≤ stream.length) :
    zipWith (· ^^^ ·) (zipWith (· ^^^ ·) data stream) stream = data := by
  induction data generalizing stream with
  | nil => rfl
  | cons b bs ih =>
    match stream with
    | [] => simp at h
    | k::ks =>
      simp only [length_cons,Nat.add_le_add_iff_right] at h
      simp only [zipWith_cons_cons,ih h]
      rw [UInt8.xor_assoc,UInt8.xor_self,UInt8.xor_zero]

theorem split_sixteen (head tail : Bytes) {n : ℕ} (hh : head.length = min 16 n)
    (ht : tail.length = n-16) : (head++tail).take 16 = head ∧ (head++tail).drop 16 = tail := by
  have htake : tail.take (16-head.length) = [] := by
    rw [take_eq_nil_iff,← length_eq_zero_iff]
    omega
  have hdrop : 16-head.length = 0 ∨ tail = [] := take_eq_nil_iff.mp htake
  rw [take_append,drop_append,htake,append_nil,take_of_length_le (by omega),
    drop_of_length_le (by omega),nil_append]
  refine ⟨rfl,?_⟩
  rcases hdrop with h | h
  · rw [h,drop_zero]
  · rw [h,drop_nil]

@[simp] theorem ctrXor_ctrXor (data : Bytes) : ctrXor roundKey counter (ctrXor roundKey counter
    data) = data := by
  induction hn : data.length using Nat.strong_induction_on generalizing counter data with
  | _ n ih =>
    by_cases hd : data = []
    · simp [hd]
    have hpos := length_pos_iff.mpr hd
    have hne : ctrXor roundKey counter data ≠ [] := by
      rw [← length_pos_iff,ctrXor_length]
      exact hpos
    obtain ⟨hhead,htail⟩ := split_sixteen (n:=data.length)
      (zipWith (· ^^^ ·) (data.take 16)
        (aesEncryptBlock roundKey (inc32 counter)).toList)
      (ctrXor roundKey (inc32 counter) (data.drop 16))
      (by rw [length_zipWith,length_take,Vector.length_toList]; omega)
      (by rw [ctrXor_length,length_drop])
    rw [← ctrXor_cons hd] at hhead htail
    rw [ctrXor_cons hne,hhead,htail,zipWith_xor_cancel (by simp),
      ih _ (by rw [length_drop]; omega) _ _ rfl,take_append_drop]

theorem foldl_or_eq_zero (bs : Bytes) (acc : UInt8) :
    bs.foldl (· ||| ·) acc = 0 ↔ acc = 0 ∧ ∀ b ∈ bs, b = 0 := by
  induction bs generalizing acc with
  | nil => simp
  | cons b bs ih =>
    rw [foldl_cons,ih,UInt8.or_eq_zero_iff]
    simp [and_assoc]

theorem zipWith_xor_eq_zero {xs ys : Bytes} (h : xs.length = ys.length) :
    (∀ b ∈ zipWith (· ^^^ ·) xs ys, b = 0) ↔ xs = ys := by
  induction xs generalizing ys with
  | nil => simpa [eq_comm] using h.symm
  | cons x xs ih =>
    match ys with
    | [] => simp at h
    | y::ys => simp [ih (Nat.succ.inj h)]

theorem tagDiff_eq_zero (expect tag : Block) : tagDiff expect tag = 0 ↔ expect = tag := by
  rw [tagDiff,foldl_or_eq_zero,zipWith_xor_eq_zero (by simp),Vector.toList_inj]
  simp

theorem linkAesgcmDecrypt_encrypt (key : Block) (nonce : Nonce) (aad pt : Bytes) :
    linkAesgcmDecrypt key nonce aad (linkAesgcmEncrypt key nonce aad pt).1
      (linkAesgcmEncrypt key nonce aad pt).2 = some pt := by
  simp [linkAesgcmDecrypt,linkAesgcmEncrypt,tagDiff_eq_zero]

theorem linkAesgcmEncrypt_length (key : Block) (nonce : Nonce) (aad pt : Bytes) :
    (linkAesgcmEncrypt key nonce aad pt).1.length = pt.length := by
  simp [linkAesgcmEncrypt]

theorem linkAesgcmDecrypt_eq (key : Block) (nonce : Nonce) (aad ct : Bytes) (tag : Block) :
    let text := ctrXor (expandKey key) (initialCounter nonce) ct
    linkAesgcmDecrypt key nonce aad ct tag =
      if tag = (linkAesgcmEncrypt key nonce aad text).2 then some text else none := by
  simp [linkAesgcmDecrypt,linkAesgcmEncrypt,tagDiff_eq_zero,eq_comm (a:=tag)]

/-- What encryption gives is accepted and read back; a tag is accepted when it is the one of the
text that decrypting gives, and otherwise nothing is written. -/
theorem aesgcm_round_trip (key : Block) (nonce : Nonce) (aad pt ct : Bytes) (tag : Block)
    (out : Bytes) :
    let sealed := linkAesgcmEncrypt key nonce aad pt
    let text := ctrXor (expandKey key) (initialCounter nonce) ct
    let result := linkAesgcmDecryptTo out key nonce aad ct tag
    linkAesgcmDecryptTo out key nonce aad sealed.1 sealed.2 = (0,pt++out.drop pt.length) ∧
      (result.1 = 0 ↔ ∀ i : Fin 16, tag[i] = (linkAesgcmEncrypt key nonce aad text).2[i]) ∧
      (result.1 = 0 → result.2 = text++out.drop ct.length) ∧
      (result.1 ≠ 0 → result = (-1,out)) := by
  intro sealed text result
  refine ⟨?_,?_⟩
  · simp [linkAesgcmDecryptTo,sealed,linkAesgcmDecrypt_encrypt,linkAesgcmEncrypt_length]
  · have hbytes : (∀ i : Fin 16, tag[i] = (linkAesgcmEncrypt key nonce aad text).2[i]) ↔
        tag = (linkAesgcmEncrypt key nonce aad text).2 :=
      ⟨fun h => Vector.ext fun i hi => h ⟨i,hi⟩,fun h _ => by rw [← h]⟩
    rw [hbytes]
    by_cases h : tag = (linkAesgcmEncrypt key nonce aad text).2
    · have hresult : result = (0,text++out.drop ct.length) := by
        simp only [result,linkAesgcmDecryptTo,linkAesgcmDecrypt_eq]
        rw [if_pos h]
      simp [hresult,h]
    · have hresult : result = (-1,out) := by
        simp only [result,linkAesgcmDecryptTo,linkAesgcmDecrypt_eq]
        rw [if_neg h]
      simp [hresult,h]

end TinyDeviceOs.LinkCrypto
