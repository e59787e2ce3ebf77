import TinyDeviceOs.LittleEndian
import TinyDeviceOs.Regions

/-! Records of one size, as a C program copies them to and from memory. -/
namespace TinyDeviceOs.Records

open LittleEndian Regions List

/-- A value is read back, whatever comes after it. -/
structure Format (α : Type) where
  size : ℕ
  encode : α → Bytes
  decode : Bytes → α
  encode_length : ∀ x, (encode x).length = size
  decode_encode : ∀ x rest, decode (encode x++rest) = x

theorem take_toBytes : (toBytes n w++rest).take n = toBytes n w :=
  take_left' (toBytes_length n w)

theorem word16_toBytes (x : UInt16) (rest : Bytes) :
    UInt16.ofNat (ofBytes ((toBytes 2 x.toNat++rest).take 2)) = x := by
  have hlt : x.toNat < 256^2 := x.toNat_lt
  rw [take_toBytes,ofBytes_toBytes,Nat.mod_eq_of_lt hlt,UInt16.ofNat_toNat]

theorem word32_toBytes (x : UInt32) (rest : Bytes) :
    UInt32.ofNat (ofBytes ((toBytes 4 x.toNat++rest).take 4)) = x := by
  have hlt : x.toNat < 256^4 := x.toNat_lt
  rw [take_toBytes,ofBytes_toBytes,Nat.mod_eq_of_lt hlt,UInt32.ofNat_toNat]

def word16 : Format UInt16 where
  size := 2
  encode := fun x => toBytes 2 x.toNat
  decode := fun bytes => UInt16.ofNat (ofBytes (bytes.take 2))
  encode_length := fun x => toBytes_length 2 x.toNat
  decode_encode := word16_toBytes

def word32 : Format UInt32 where
  size := 4
  encode := fun x => toBytes 4 x.toNat
  decode := fun bytes => UInt32.ofNat (ofBytes (bytes.take 4))
  encode_length := fun x => toBytes_length 4 x.toNat
  decode_encode := word32_toBytes

def flag : Format Bool where
  size := 1
  encode := fun x => [if x then 1 else 0]
  decode := fun bytes => bytes.headD 0 ≠ 0
  encode_length := fun _ => rfl
  decode_encode := fun x _ => match x with
    | true => rfl
    | false => rfl

abbrev Chars (n : ℕ) := { bytes : Bytes // bytes.length = n }

theorem resize_append (x : Chars n) (rest : Bytes) : resize 0 (x.1++rest) n = x.1 := by
  have hlen : x.1.length = n := x.2
  rw [resize,take_left' hlen,length_append,hlen]
  simp

/-- What the bytes do not reach is zero. -/
def chars (n : ℕ) : Format (Chars n) where
  size := n
  encode := Subtype.val
  decode := fun bytes => ⟨resize 0 bytes n,resize_length⟩
  encode_length := Subtype.property
  decode_encode := fun x rest => Subtype.ext (resize_append x rest)

/-- An array that holds a text, filled up with zeros. -/
def padded (n : ℕ) (text : Bytes) : Chars n := ⟨resize 0 text n,resize_length⟩

section

variable {α β : Type} (a : Format α) (b : Format β)

def pair : Format (α × β) where
  size := a.size+b.size
  encode := fun x => a.encode x.1++b.encode x.2
  decode := fun bytes => (a.decode bytes,b.decode (bytes.drop a.size))
  encode_length := by
    intro x
    rw [length_append,a.encode_length,b.encode_length]
  decode_encode := by
    intro x rest
    rw [append_assoc,a.decode_encode,drop_left' (a.encode_length x.1),b.decode_encode]

/-- The same bytes for the values of another type. -/
def via (f : β → α) (g : α → β) (h : ∀ y, g (f y) = y) : Format β where
  size := a.size
  encode := fun y => a.encode (f y)
  decode := fun bytes => g (a.decode bytes)
  encode_length := fun y => a.encode_length (f y)
  decode_encode := fun y rest => (congrArg g (a.decode_encode (f y) rest)).trans (h y)

end

section

variable {α : Type} (a : Format α)

variable (xs : List α)

def encodeAll : Bytes := xs.flatMap a.encode

def decodeArray : ℕ → Bytes → List α
  | 0,_ => []
  | n+1,bytes => a.decode bytes::decodeArray n (bytes.drop a.size)

theorem encodeAll_length : (encodeAll a xs).length = xs.length*a.size :=
  flatMap_length a.encode_length xs

theorem decodeArray_encodeAll (rest : Bytes) : decodeArray a xs.length (encodeAll a xs++rest) =
    xs := by
  induction xs with
  | nil => rfl
  | cons x xs ih =>
    have hall : encodeAll a (x::xs) = a.encode x++encodeAll a xs := flatMap_cons
    rw [hall,append_assoc,length_cons,decodeArray,a.decode_encode,
      drop_left' (a.encode_length x),ih]

end

end TinyDeviceOs.Records
