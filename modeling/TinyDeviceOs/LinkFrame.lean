import TinyDeviceOs.LittleEndian

/-! The link frame and its tagged payload, after `link/link_frame.c`. -/
namespace TinyDeviceOs.LinkFrame

open LittleEndian List

def linkVersion : UInt8 := 1
def linkMaxPayload : ℕ := 240
def linkHeaderLen : ℕ := 9
def linkMaxFrame : ℕ := linkHeaderLen+linkMaxPayload+2

/-- The two bytes of `LINK_MAGIC`, in wire order. -/
def magicLo : UInt8 := 0x07
def magicHi : UInt8 := 0xab

def flagError : UInt8 := 0x02
def flagEncrypted : UInt8 := 0x08

def chHello : UInt8 := 0
def chCall : UInt8 := 1
def chResult : UInt8 := 2
def chError : UInt8 := 3
def chEvent : UInt8 := 4
def chTty : UInt8 := 5

/-- The fixed payload array of `link_frame_t`. -/
structure Payload where
  bytes : Bytes
  length_eq : bytes.length = linkMaxPayload
  deriving DecidableEq

variable (bs : Bytes)

/-- Zeroed, with `bs` copied to its start. -/
def Payload.ofBytes : Payload where
  bytes := (bs++replicate linkMaxPayload 0).take linkMaxPayload
  length_eq := by simp

@[ext] theorem Payload.ext {p q : Payload} (h : p.bytes = q.bytes) : p = q := by
  cases p; cases q; simpa using h

theorem Payload.take_ofBytes (h : bs.length ≤ linkMaxPayload) : (Payload.ofBytes bs).bytes.take
    bs.length = bs := by
  simp [Payload.ofBytes,take_take,min_eq_left h]

theorem Payload.ofBytes_bytes (h : bs.length ≤ linkMaxPayload) : (Payload.ofBytes bs).bytes =
    bs++replicate (linkMaxPayload-bs.length) 0 := by
  simp [Payload.ofBytes,take_append,take_of_length_le h]

/-- `link_frame_t`. Only the first `length` payload bytes travel. -/
structure Frame where
  (version flags channel : UInt8)
  (msgId length : UInt16)
  payload : Payload
  deriving DecidableEq

def Frame.body (f : Frame) : Bytes := f.payload.bytes.take f.length.toNat

/-- A zeroed frame carrying `body`. -/
def Frame.ofBody (version flags channel : UInt8) (msgId : UInt16) (body : Bytes) : Frame :=
  ⟨version,flags,channel,msgId,UInt16.ofNat body.length,Payload.ofBytes body⟩

variable {v fl ch : UInt8} {id : UInt16} {f : Frame} {cap n : ℕ} {out inp xs : Bytes}

theorem Frame.ofBody_length {body : Bytes}
    (h : body.length ≤ linkMaxPayload) : (Frame.ofBody v fl ch id body).length.toNat = body.length := by
  simp only [linkMaxPayload] at h
  simp only [Frame.ofBody,UInt16.toNat_ofNat']
  omega

@[simp] theorem Frame.ofBody_body {body : Bytes}
    (h : body.length ≤ linkMaxPayload) : (Frame.ofBody v fl ch id body).body = body := by
  rw [Frame.body,Frame.ofBody_length h]
  exact Payload.take_ofBytes _ h

def crcBit (crc : UInt16) : UInt16 :=
  if crc &&& 0x8000 ≠ 0 then (crc <<< 1) ^^^ 0x1021 else crc <<< 1

def crcByte (crc : UInt16) (b : UInt8) : UInt16 :=
  crcBit^[8] (crc ^^^ (b.toUInt16 <<< 8))

def linkCrc16 (data : Bytes) : UInt16 := data.foldl crcByte 0xffff

example : linkCrc16 [0x31,0x32,0x33,0x34,0x35,0x36,0x37,0x38,0x39] = 0x29b1 := by decide +kernel

def wireVersion (version : UInt8) : UInt8 := if version ≠ 0 then version else linkVersion

section

variable (f)

def header : Bytes :=
  [magicLo,magicHi,wireVersion f.version,f.flags,f.channel]++le16 f.msgId++le16 f.length

@[simp] theorem header_length : (header f).length = linkHeaderLen := rfl

/-- `none` is the return value `-1`; otherwise the bytes written. -/
def linkFrameEncode (cap : ℕ) : Option Bytes :=
  if linkMaxPayload < f.length.toNat then none
  else if cap < linkHeaderLen+f.length.toNat+2 then none
  else
    let out := header f++f.payload.bytes.take f.length.toNat
    some (out++le16 (linkCrc16 out))

variable (inp)

/-- `none` is `-1`; otherwise the bytes consumed and the frame. -/
def linkFrameDecode : Option (ℕ × Frame) :=
  if inp.length < linkHeaderLen+2 then none
  else if inp.getD 0 0 ≠ magicLo ∨ inp.getD 1 0 ≠ magicHi then none
  else
    let length := u16 (inp.getD 7 0) (inp.getD 8 0)
    let body := linkHeaderLen+length.toNat
    if linkMaxPayload < length.toNat ∨ inp.length < body+2 then none
    else if linkCrc16 (inp.take body) ≠ u16 (inp.getD body 0) (inp.getD (body+1) 0) then none
    else some (body+2,
      { version := inp.getD 2 0
        flags := inp.getD 3 0
        channel := inp.getD 4 0
        msgId := u16 (inp.getD 5 0) (inp.getD 6 0)
        length := length
        payload := Payload.ofBytes ((inp.drop linkHeaderLen).take length.toNat) })

theorem linkFrameDecode_isSome : (linkFrameDecode inp).isSome ↔ linkHeaderLen+2 ≤ inp.length ∧
    (inp.getD 0 0 = magicLo ∧ inp.getD 1 0 = magicHi) ∧ (u16 (inp.getD 7 0) (inp.getD 8
    0)).toNat ≤ linkMaxPayload ∧ linkHeaderLen+(u16 (inp.getD 7 0) (inp.getD 8 0)).toNat+2 ≤
    inp.length ∧ linkCrc16 (inp.take (linkHeaderLen+(u16 (inp.getD 7 0) (inp.getD 8 0)).toNat))
    = u16 (inp.getD (linkHeaderLen+(u16 (inp.getD 7 0) (inp.getD 8 0)).toNat) 0) (inp.getD
    (linkHeaderLen+(u16 (inp.getD 7 0) (inp.getD 8 0)).toNat+1) 0) := by
  simp only [linkFrameDecode]
  split_ifs with h1 h2 h3 h4
  · simp only [Option.isSome_none,Bool.false_eq_true,false_iff]
    omega
  · simp only [Option.isSome_none,Bool.false_eq_true,false_iff]
    tauto
  · simp only [Option.isSome_none,Bool.false_eq_true,false_iff]
    omega
  · simp only [Option.isSome_none,Bool.false_eq_true,false_iff]
    tauto
  · push Not at h1 h2 h3 h4
    simp only [Option.isSome_some,true_iff]
    exact ⟨h1,h2,h3.1,h3.2,h4⟩

/-- After its trip over the wire. -/
def Frame.normalize : Frame :=
  { f with version := wireVersion f.version, payload := Payload.ofBytes f.body }

end

theorem Frame.body_length (h : f.length.toNat ≤ linkMaxPayload) :
    f.body.length = f.length.toNat := by
  simp [Frame.body,f.payload.length_eq,h]

theorem linkFrameEncode_eq (cap : ℕ) (hl : f.length.toNat ≤ linkMaxPayload)
    (hc : linkHeaderLen+f.length.toNat+2 ≤ cap) :
    linkFrameEncode f cap = some (header f++f.body++le16 (linkCrc16 (header f++f.body))) := by
  simp [linkFrameEncode,Frame.body,not_lt.mpr hl,not_lt.mpr hc]

theorem linkFrameEncode_some (h : linkFrameEncode f cap = some out) :
    f.length.toNat ≤ linkMaxPayload ∧ out.length = linkHeaderLen+f.length.toNat+2 ∧
      out.length ≤ cap ∧ out = header f++f.body++le16 (linkCrc16 (header f++f.body)) := by
  simp only [linkFrameEncode] at h
  split_ifs at h with hl hc
  have hl' := not_lt.mp hl
  have hb := Frame.body_length hl'
  have ho : out = header f++f.body++le16 (linkCrc16 (header f++f.body)) := by
    simpa [Frame.body,eq_comm] using h
  have hn : out.length = linkHeaderLen+f.length.toNat+2 := by
    simp only [ho,length_append,header_length,hb,le16_length]
  exact ⟨hl',hn,by omega,ho⟩

/-- Whatever bytes follow it. -/
theorem linkFrameDecode_encode (rest : Bytes)
    (h : linkFrameEncode f cap = some out) :
    linkFrameDecode (out++rest) = some (out.length,f.normalize) := by
  obtain ⟨hl,hn,-,ho⟩ := linkFrameEncode_some h
  have hb := Frame.body_length hl
  have hlen : u16 ((out++rest).getD 7 0) ((out++rest).getD 8 0) = f.length := by
    simp [ho,header,le16]
  have hid : u16 ((out++rest).getD 5 0) ((out++rest).getD 6 0) = f.msgId := by
    simp [ho,header,le16]
  have htake : (out++rest).take (linkHeaderLen+f.length.toNat) = header f++f.body := by
    rw [ho,append_assoc]
    apply take_left'
    simp [hb]
  have hcrc : u16 ((out++rest).getD (linkHeaderLen+f.length.toNat) 0)
      ((out++rest).getD (linkHeaderLen+f.length.toNat+1) 0) = linkCrc16 (header f++f.body) := by
    have hpre : (header f++f.body).length = linkHeaderLen+f.length.toNat := by simp [hb]
    have hat (i : ℕ) : (out++rest).getD (linkHeaderLen+f.length.toNat+i) 0 =
        (le16 (linkCrc16 (header f++f.body))++rest).getD i 0 := by
      rw [ho,append_assoc (header f++f.body),getD_append_right _ _ _ _ (by omega),hpre,
        Nat.add_sub_cancel_left]
    have h0 := hat 0
    rw [add_zero] at h0
    rw [h0,hat 1]
    simp [le16]
  have hdrop : ((out++rest).drop linkHeaderLen).take f.length.toNat = f.body := by
    rw [ho]
    simp only [append_assoc]
    rw [drop_left' (by simp),take_left' hb]
  have h0 : (out++rest).getD 0 0 = magicLo := by simp [ho,header]
  have h1 : (out++rest).getD 1 0 = magicHi := by simp [ho,header]
  have h2 : (out++rest).getD 2 0 = wireVersion f.version := by simp [ho,header]
  have h3 : (out++rest).getD 3 0 = f.flags := by simp [ho,header]
  have h4 : (out++rest).getD 4 0 = f.channel := by simp [ho,header]
  have hge : ¬ (out++rest).length < linkHeaderLen+f.length.toNat+2 := by
    rw [length_append,hn]; omega
  have hge' : ¬ (out++rest).length < linkHeaderLen+2 := by omega
  simp only [linkFrameDecode,hge',h0,h1,hlen,hge,htake,hcrc,hdrop,h2,h3,h4,hid,not_lt.mpr hl,
    Frame.normalize,hn]
  simp

theorem linkFrameDecode_used (h : linkFrameDecode inp = some (n,f)) :
    n = linkHeaderLen+f.length.toNat+2 ∧ f.length = u16 (inp.getD 7 0) (inp.getD 8 0) := by
  simp only [linkFrameDecode] at h
  split_ifs at h
  simp only [Option.some.injEq,Prod.mk.injEq] at h
  obtain ⟨rfl,rfl⟩ := h
  exact ⟨rfl,rfl⟩

theorem take_add_two (h : n+2 ≤ xs.length) :
    xs.take (n+2) = xs.take n++[xs.getD n 0,xs.getD (n+1) 0] := by
  have h₀ : n < xs.length := by omega
  have h₁ : n+1 < xs.length := by omega
  rw [getD_eq_getElem _ _ h₀,getD_eq_getElem _ _ h₁,←take_concat_get' xs (n+1) h₁,
    ←take_concat_get' xs n h₀,append_assoc]
  rfl

theorem take_nine (h : 9 ≤ xs.length) : xs.take 9 = [xs.getD 0 0,xs.getD 1 0,
    xs.getD 2 0,xs.getD 3 0,xs.getD 4 0,xs.getD 5 0,xs.getD 6 0,xs.getD 7 0,xs.getD 8 0] := by
  match xs,h with
  | _::_::_::_::_::_::_::_::_::_,_ => rfl

/-- Encoding a decoded frame gives back the bytes it was read from. -/
theorem linkFrameEncode_decode (h : linkFrameDecode inp = some (n,f)) (hv : inp.getD 2 0 ≠ 0) (hc : n ≤ cap) :
    linkFrameEncode f cap = some (inp.take n) := by
  have hsome : (linkFrameDecode inp).isSome := by rw [h]; rfl
  obtain ⟨hlen,⟨hlo,hhi⟩,hmax,htotal,hcrc⟩ := (linkFrameDecode_isSome inp).mp hsome
  obtain ⟨rfl,hl⟩ := linkFrameDecode_used h
  simp only [linkFrameDecode,not_lt.mpr hlen,hlo,hhi,not_lt.mpr hmax,
    not_lt.mpr htotal,hcrc,ne_eq,not_true_eq_false,or_self,if_false,Option.some.injEq,
    Prod.mk.injEq] at h
  obtain ⟨-,hf⟩ := h
  rw [hl] at hc ⊢
  set L := (u16 (inp.getD 7 0) (inp.getD 8 0)).toNat with hL
  have hbody : f.body = (inp.drop linkHeaderLen).take L := by
    have hsize : ((inp.drop linkHeaderLen).take L).length = L := by
      rw [length_take,length_drop]
      omega
    have htake := Payload.take_ofBytes _ (hsize.trans_le hmax)
    rw [hsize] at htake
    rw [Frame.body,hl,←hf]
    exact htake
  have hheader : header f = inp.take linkHeaderLen := by
    rw [linkHeaderLen,take_nine (by simp only [linkHeaderLen] at hlen; omega),header,←hf,hlo,hhi,
      le16_u16,le16_u16,wireVersion,if_pos hv]
    rfl
  have hpre : header f++f.body = inp.take (linkHeaderLen+L) := by
    rw [hheader,hbody,←take_add]
  rw [linkFrameEncode_eq cap (by rw [hl]; exact hmax) (by rw [hl]; exact hc),hpre,hcrc,le16_u16,
    take_add_two htotal]

section

variable (buf : Bytes)

/-- On a buffer holding `buf`, with `cap` bytes of room in all. -/
def linkTlvPut (cap : ℕ) (tag : UInt8) (value : Bytes) : Option Bytes :=
  if cap < buf.length+2+value.length then none
  else some (buf++tag::UInt8.ofNat value.length::value)

def linkTlvPutU8 (cap : ℕ) (tag value : UInt8) : Option Bytes :=
  linkTlvPut buf cap tag [value]

def linkTlvPutU16 (cap : ℕ) (tag : UInt8) (value : UInt16) : Option Bytes :=
  linkTlvPut buf cap tag (le16 value)

def linkTlvPutStr (cap : ℕ) (tag : UInt8) (text : Bytes) : Option Bytes :=
  if 255 < text.length then none else linkTlvPut buf cap tag text

end

/-- The first field with the given tag, if it is whole and fits `cap` bytes. -/
def linkTlvGet (tag : UInt8) (cap : ℕ) : Bytes → Option Bytes
  | t::len::rest =>
    if rest.length < len.toNat then none
    else if t = tag then
      if cap < len.toNat then none else some (rest.take len.toNat)
    else linkTlvGet tag cap (rest.drop len.toNat)
  | _ => none
termination_by buf => buf.length
decreasing_by simp only [length_drop,length_cons]; omega

theorem linkTlvGet_field (tag : UInt8) (cap : ℕ) (value rest : Bytes) (hv : value.length ≤ 255)
    : linkTlvGet tag cap (t::UInt8.ofNat value.length::(value++rest)) = if t = tag then if cap <
    value.length then none else some value else linkTlvGet tag cap rest := by
  have hn : (UInt8.ofNat value.length).toNat = value.length := by
    rw [UInt8.toNat_ofNat']
    omega
  rw [linkTlvGet]
  simp [hn]

@[simp] theorem linkTlvGet_nil (tag : UInt8) (cap : ℕ) : linkTlvGet tag cap [] = none := by
  rw [linkTlvGet]
  simp

end TinyDeviceOs.LinkFrame
