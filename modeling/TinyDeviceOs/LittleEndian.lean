import Mathlib.Data.Nat.Bitwise
import Mathlib.Data.UInt
import Mathlib.Tactic

/-! Little-endian words, read by arithmetic (`ofBytes`) or by the shift-and-or idiom of C. -/
namespace TinyDeviceOs.LittleEndian

abbrev Bytes := List UInt8

def ofBytes : Bytes → ℕ
  | [] => 0
  | b::bs => b.toNat+256*ofBytes bs

/-- The `n` lowest bytes of a number, least significant first. -/
def toBytes : ℕ → ℕ → Bytes
  | 0, _ => []
  | n+1, w => UInt8.ofNat w :: toBytes n (w/256)

@[simp] theorem toBytes_length (n w : ℕ) : (toBytes n w).length = n := by
  induction n generalizing w with
  | zero => rfl
  | succ n ih => simp [toBytes,ih]

theorem ofBytes_toBytes (n w : ℕ) : ofBytes (toBytes n w) = w % 256^n := by
  induction n generalizing w with
  | zero => simp [toBytes,ofBytes,Nat.mod_one]
  | succ n ih =>
    simp only [toBytes,ofBytes,ih,UInt8.toNat_ofNat']
    have hm : w % 256^(n+1) = w % 256+256*(w/256 % 256^n) := by rw [pow_succ',Nat.mod_mul]
    rw [hm]

theorem toBytes_ofBytes (bs : Bytes) : toBytes bs.length (ofBytes bs) = bs := by
  induction bs with
  | nil => rfl
  | cons b bs ih =>
    have hb := b.toNat_lt
    have hd : (b.toNat+256*ofBytes bs)/256 = ofBytes bs := by omega
    have hm : UInt8.ofNat (b.toNat+256*ofBytes bs) = b := by
      apply UInt8.toNat_inj.mp
      simp only [UInt8.toNat_ofNat']
      omega
    simp only [List.length_cons,toBytes,ofBytes,hd,hm,ih]

theorem toBytes_injective (hv : v < 256^n) (hw : w < 256^n) (h : toBytes n v = toBytes n w) : v
    = w := by
  have hh := congrArg ofBytes h
  rwa [ofBytes_toBytes,ofBytes_toBytes,Nat.mod_eq_of_lt hv,Nat.mod_eq_of_lt hw] at hh

theorem or_shiftLeft (hx : x < 2^n) : x ||| (y <<< n) = x+y*2^n := by
  rw [Nat.or_comm,← Nat.shiftLeft_add_eq_or_of_lt hx,Nat.shiftLeft_eq,add_comm]

theorem and_255 : x &&& 255 = x % 256 := Nat.and_two_pow_sub_one_eq_mod x 8

variable (lo hi : UInt8)

/-- The C reading of a 16-bit field, `lo | hi << 8`. -/
def u16 : UInt16 := lo.toUInt16 ||| (hi.toUInt16 <<< 8)

theorem u16_toNat : (u16 lo hi).toNat = lo.toNat+256*hi.toNat := by
  have hl := lo.toNat_lt
  have hh := hi.toNat_lt
  have hs : (hi.toUInt16 <<< 8).toNat = hi.toNat <<< 8 := by
    simp only [UInt16.toNat_shiftLeft,UInt8.toNat_toUInt16,UInt16.reduceToNat,
      Nat.reduceMod,Nat.shiftLeft_eq]
    omega
  simp only [u16,UInt16.toNat_or,hs,UInt8.toNat_toUInt16]
  rw [or_shiftLeft (n:=8) (by omega)]
  omega

def lo16 (w : UInt16) : UInt8 := (w &&& 0xff).toUInt8
def hi16 (w : UInt16) : UInt8 := (w >>> 8).toUInt8

theorem lo16_eq : lo16 w = UInt8.ofNat w.toNat := by
  apply UInt8.toNat_inj.mp
  simp [lo16,and_255]

theorem hi16_eq : hi16 w = UInt8.ofNat (w.toNat/256) := by
  apply UInt8.toNat_inj.mp
  simp [hi16,Nat.shiftRight_eq_div_pow]

def le16 (w : UInt16) : Bytes := [lo16 w,hi16 w]

@[simp] theorem le16_length : (le16 w).length = 2 := rfl

theorem le16_eq : le16 w = toBytes 2 w.toNat := by
  simp only [le16,toBytes,lo16_eq,hi16_eq]

@[simp] theorem u16_lo_hi : u16 (lo16 w) (hi16 w) = w := by
  have hw := w.toNat_lt
  apply UInt16.toNat_inj.mp
  rw [u16_toNat,lo16_eq,hi16_eq,UInt8.toNat_ofNat',UInt8.toNat_ofNat']
  omega

theorem le16_u16 : le16 (u16 lo hi) = [lo,hi] := by
  rw [le16_eq,u16_toNat]
  simpa [ofBytes] using toBytes_ofBytes [lo,hi]

def u32 (b₀ b₁ b₂ b₃ : UInt8) : UInt32 :=
  b₀.toUInt32 ||| (b₁.toUInt32 <<< 8) ||| (b₂.toUInt32 <<< 16) ||| (b₃.toUInt32 <<< 24)

theorem ofBytes_cons_or : ofBytes (b::bs) = b.toNat ||| ofBytes bs <<< 8 := by
  rw [or_shiftLeft (n:=8) b.toNat_lt,ofBytes]
  omega

theorem byte_shiftLeft_toNat32 (b : UInt8) (n : UInt32) (hn : n.toNat ≤ 24) :
    (b.toUInt32 <<< n).toNat = b.toNat <<< n.toNat := by
  have hb := b.toNat_lt
  rw [UInt32.toNat_shiftLeft,Nat.mod_eq_of_lt (by omega : n.toNat < 32),UInt8.toNat_toUInt32,
    Nat.shiftLeft_eq]
  apply Nat.mod_eq_of_lt
  calc b.toNat*2^n.toNat < 2^8*2^n.toNat := by gcongr
    _ ≤ 2^8*2^24 := by gcongr; norm_num
    _ = 2^32 := by norm_num

theorem u32_toNat (b₀ b₁ b₂ b₃ : UInt8) : (u32 b₀ b₁ b₂ b₃).toNat = ofBytes [b₀,b₁,b₂,b₃] := by
  simp only [u32,UInt32.toNat_or]
  rw [byte_shiftLeft_toNat32 b₁ 8 (by decide),byte_shiftLeft_toNat32 b₂ 16 (by decide),
    byte_shiftLeft_toNat32 b₃ 24 (by decide)]
  simp [ofBytes_cons_or,show ofBytes [] = 0 from rfl,Nat.shiftLeft_or_distrib,←Nat.shiftLeft_add,
    Nat.or_assoc]

section

variable (b₀ b₁ b₂ b₃ b₄ b₅ b₆ b₇ : UInt8)

def u64 : UInt64 :=
  b₀.toUInt64 ||| (b₁.toUInt64 <<< 8) ||| (b₂.toUInt64 <<< 16) ||| (b₃.toUInt64 <<< 24) |||
    (b₄.toUInt64 <<< 32) ||| (b₅.toUInt64 <<< 40) ||| (b₆.toUInt64 <<< 48) ||| (b₇.toUInt64 <<< 56)

theorem byte_shiftLeft_toNat (b : UInt8) (n : UInt64) (hn : n.toNat ≤ 56) :
    (b.toUInt64 <<< n).toNat = b.toNat <<< n.toNat := by
  have hb := b.toNat_lt
  rw [UInt64.toNat_shiftLeft,Nat.mod_eq_of_lt (by omega : n.toNat < 64),UInt8.toNat_toUInt64,
    Nat.shiftLeft_eq]
  apply Nat.mod_eq_of_lt
  calc b.toNat*2^n.toNat < 2^8*2^n.toNat := by gcongr
    _ ≤ 2^8*2^56 := by gcongr; norm_num
    _ = 2^64 := by norm_num

theorem u64_toNat : (u64 b₀ b₁ b₂ b₃ b₄ b₅ b₆ b₇).toNat = ofBytes [b₀,b₁,b₂,b₃,b₄,b₅,b₆,b₇] := by
  simp only [u64,UInt64.toNat_or]
  rw [byte_shiftLeft_toNat b₁ 8 (by decide),byte_shiftLeft_toNat b₂ 16 (by decide),
    byte_shiftLeft_toNat b₃ 24 (by decide),byte_shiftLeft_toNat b₄ 32 (by decide),
    byte_shiftLeft_toNat b₅ 40 (by decide),byte_shiftLeft_toNat b₆ 48 (by decide),
    byte_shiftLeft_toNat b₇ 56 (by decide)]
  simp [ofBytes_cons_or,show ofBytes [] = 0 from rfl,Nat.shiftLeft_or_distrib,←Nat.shiftLeft_add,
    Nat.or_assoc]

end

def le64 (w : UInt64) : Bytes :=
  [(w &&& 0xff).toUInt8,((w >>> 8) &&& 0xff).toUInt8,((w >>> 16) &&& 0xff).toUInt8,
    ((w >>> 24) &&& 0xff).toUInt8,((w >>> 32) &&& 0xff).toUInt8,((w >>> 40) &&& 0xff).toUInt8,
    ((w >>> 48) &&& 0xff).toUInt8,((w >>> 56) &&& 0xff).toUInt8]

@[simp] theorem le64_length : (le64 w).length = 8 := rfl

theorem shift_byte (w n : UInt64) (hn : n.toNat < 64) :
    ((w >>> n) &&& 0xff).toUInt8 = UInt8.ofNat (w.toNat/2^n.toNat) := by
  apply UInt8.toNat_inj.mp
  simp [UInt64.toNat_shiftRight,Nat.mod_eq_of_lt hn,Nat.shiftRight_eq_div_pow,and_255]

theorem le64_eq : le64 w = toBytes 8 w.toNat := by
  have h0 : (w &&& 0xff).toUInt8 = UInt8.ofNat w.toNat := by
    apply UInt8.toNat_inj.mp
    simp [and_255]
  simp only [le64,h0]
  rw [shift_byte w 8 (by decide),shift_byte w 16 (by decide),shift_byte w 24 (by decide),
    shift_byte w 32 (by decide),shift_byte w 40 (by decide),shift_byte w 48 (by decide),
    shift_byte w 56 (by decide)]
  simp only [toBytes,Nat.div_div_eq_div_mul]
  rfl

theorem u64_toBytes (h : le64 w = [b₀,b₁,b₂,b₃,b₄,b₅,b₆,b₇]) : u64 b₀ b₁ b₂ b₃ b₄ b₅ b₆ b₇ = w := by
  apply UInt64.toNat_inj.mp
  rw [u64_toNat,← h,le64_eq,ofBytes_toBytes]
  exact Nat.mod_eq_of_lt w.toNat_lt

theorem le64_injective (h : le64 v = le64 w) : v = w := by
  rw [le64_eq,le64_eq] at h
  exact UInt64.toNat_inj.mp (toBytes_injective v.toNat_lt w.toNat_lt h)

end TinyDeviceOs.LittleEndian
