import TinyDeviceOs.LinkStream

/-! The host side of the link, after `scripts/link_codec.py`. Python integers are natural numbers
with explicit masks, and the buffer is unbounded. -/
namespace TinyDeviceOs.HostCodec

open LittleEndian LinkFrame IncrementalScan LinkStream List

def crcStep (crc : ℕ) : ℕ :=
  if crc &&& 0x8000 ≠ 0 then ((crc <<< 1) ^^^ 0x1021) &&& 0xffff else (crc <<< 1) &&& 0xffff

def crc16 (data : Bytes) : ℕ :=
  data.foldl (fun crc byte => crcStep^[8] (crc ^^^ (byte.toNat <<< 8))) 0xffff

theorem crcStep_toNat : crcStep c.toNat = (crcBit c).toNat := by
  have hmask (x : ℕ) : x &&& 0xffff = x % 2^16 := Nat.and_two_pow_sub_one_eq_mod x 16
  have hshift : (c <<< 1).toNat = (c.toNat <<< 1) % 2^16 := by simp [UInt16.toNat_shiftLeft]
  have htest : (c.toNat &&& 0x8000 ≠ 0) ↔ c &&& 0x8000 ≠ 0 := by
    rw [not_iff_not,← UInt16.toNat_inj]
    simp
  by_cases ht : c &&& 0x8000 ≠ 0
  · rw [crcStep,crcBit,if_pos (htest.mpr ht),if_pos ht,hmask,Nat.xor_mod_two_pow,UInt16.toNat_xor,
      hshift]
    rfl
  · rw [crcStep,crcBit,if_neg (fun h => ht (htest.mp h)),if_neg ht,hmask,hshift]

theorem crcStep_iterate : crcStep^[n] c.toNat = (crcBit^[n] c).toNat := by
  induction n generalizing c with
  | zero => rfl
  | succ n ih => rw [Function.iterate_succ_apply,Function.iterate_succ_apply,crcStep_toNat,ih]

theorem byte_shift_toNat (b : UInt8) : (b.toUInt16 <<< 8).toNat = b.toNat <<< 8 := by
  have hb := b.toNat_lt
  simp only [UInt16.toNat_shiftLeft,UInt8.toNat_toUInt16,UInt16.reduceToNat,Nat.reduceMod,
    Nat.shiftLeft_eq]
  omega

theorem crc16_eq (data : Bytes) : crc16 data = (linkCrc16 data).toNat := by
  have hfold (c : UInt16) :
      data.foldl (fun crc byte => crcStep^[8] (crc ^^^ (byte.toNat <<< 8))) c.toNat =
        (data.foldl crcByte c).toNat := by
    induction data generalizing c with
    | nil => rfl
    | cons b bs ih =>
      have hb : crcStep^[8] (c.toNat ^^^ (b.toNat <<< 8)) = (crcByte c b).toNat := by
        rw [crcByte,← crcStep_iterate,UInt16.toNat_xor,byte_shift_toNat]
      rw [foldl_cons,foldl_cons,hb,ih]
  exact hfold 0xffff

/-- `none` is the `ValueError` for a long value. -/
def tlvPut (buf : Bytes) (tag : UInt8) (value : Bytes) : Option Bytes :=
  if 255 < value.length then none else some (buf++tag::UInt8.ofNat value.length::value)

structure HostFrame where
  (version flags channel msgId : ℕ)
  (payload raw : Bytes)
  deriving DecidableEq

variable (raw : Bytes)

def byteAt (i : ℕ) : ℕ := (raw.getD i 0).toNat

def wordAt (i : ℕ) : ℕ := byteAt raw i ||| (byteAt raw (i+1) <<< 8)

theorem wordAt_eq (i : ℕ) : wordAt raw i = (u16 (raw.getD i 0) (raw.getD (i+1) 0)).toNat := by
  have hb := (raw.getD i 0).toNat_lt
  rw [wordAt,byteAt,byteAt,or_shiftLeft (by omega),u16_toNat]
  omega

def decodeFrame : Option HostFrame :=
  if raw.length < linkHeaderLen+2 ∨ byteAt raw 0 ≠ 0x07 ∨ byteAt raw 1 ≠ 0xab then none
  else
    let length := wordAt raw 7
    let total := linkHeaderLen+length+2
    if linkMaxPayload < length ∨ raw.length < total then none
    else if crc16 (raw.take (linkHeaderLen+length)) ≠ wordAt raw (total-2) then none
    else some
      { version := byteAt raw 2
        flags := byteAt raw 3
        channel := byteAt raw 4
        msgId := wordAt raw 5
        payload := (raw.drop linkHeaderLen).take length
        raw := raw.take total }

/-- Of a frame that the C decoder produced from `raw`. -/
def HostFrame.ofFrame (used : ℕ) (f : Frame) : HostFrame :=
  ⟨f.version.toNat,f.flags.toNat,f.channel.toNat,f.msgId.toNat,f.body,raw.take used⟩

/-- The decoders accept the same bytes and read the same fields. -/
theorem decodeFrame_eq : decodeFrame raw = (linkFrameDecode raw).map fun p => HostFrame.ofFrame
    raw p.1 p.2 := by
  have hlo : byteAt raw 0 ≠ 0x07 ↔ raw.getD 0 0 ≠ magicLo := by
    rw [byteAt,not_iff_not,← UInt8.toNat_inj]
    rfl
  have hhi : byteAt raw 1 ≠ 0xab ↔ raw.getD 1 0 ≠ magicHi := by
    rw [byteAt,not_iff_not,← UInt8.toNat_inj]
    rfl
  simp only [decodeFrame,linkFrameDecode,hlo,hhi]
  by_cases hl : raw.length < linkHeaderLen+2
  · simp [hl]
  by_cases hm : raw.getD 0 0 ≠ magicLo ∨ raw.getD 1 0 ≠ magicHi
  · simp only [hl,hm,false_or,if_true,if_false,Option.map_none]
  simp only [hl,hm,false_or,if_false,wordAt_eq raw 7,Nat.reduceAdd]
  by_cases hp : linkMaxPayload < (u16 (raw.getD 7 0) (raw.getD 8 0)).toNat ∨
      raw.length < linkHeaderLen+(u16 (raw.getD 7 0) (raw.getD 8 0)).toNat+2
  · simp only [hp,if_true,Option.map_none]
  have hb : ((raw.drop linkHeaderLen).take (u16 (raw.getD 7 0) (raw.getD 8 0)).toNat).length =
      (u16 (raw.getD 7 0) (raw.getD 8 0)).toNat := by
    push Not at hp
    rw [length_take,length_drop]
    omega
  have hbody := Payload.take_ofBytes _ (show ((raw.drop linkHeaderLen).take
      (u16 (raw.getD 7 0) (raw.getD 8 0)).toNat).length ≤ linkMaxPayload by
    push Not at hp
    rw [hb]
    exact hp.1)
  rw [hb] at hbody
  simp only [hp,if_false,Nat.add_sub_cancel,crc16_eq,wordAt_eq,UInt16.toNat_inj,ne_eq]
  split_ifs
  · simp only [Option.map_some,HostFrame.ofFrame,Frame.body,hbody,byteAt]
  · rfl

def byteOf (x : ℕ) : UInt8 := UInt8.ofNat (x &&& 0xff)

def encodeHeader (channel msgId : ℕ) (payload : Bytes) (flags : ℕ) : Bytes :=
  [0x07,0xab,1,UInt8.ofNat flags,UInt8.ofNat channel,byteOf msgId,byteOf (msgId >>> 8),
    byteOf payload.length,byteOf (payload.length >>> 8)]

/-- `none` is the `ValueError`. -/
def encodeFrame (channel msgId : ℕ) (payload : Bytes) (flags : ℕ) : Option Bytes :=
  if linkMaxPayload < payload.length then none
  else if 255 < flags ∨ 255 < channel then none
  else
    let out := encodeHeader channel msgId payload flags++payload
    let c := crc16 out
    some (out++[byteOf c,byteOf (c >>> 8)])

theorem byteOf_eq : byteOf x = UInt8.ofNat x := by
  apply UInt8.toNat_inj.mp
  rw [byteOf,UInt8.toNat_ofNat',UInt8.toNat_ofNat',and_255]
  omega

theorem byteOf_lo : byteOf w.toNat = lo16 w := by
  rw [byteOf_eq,lo16_eq]

theorem byteOf_hi : byteOf (w.toNat >>> 8) = hi16 w := by
  rw [byteOf_eq,hi16_eq,Nat.shiftRight_eq_div_pow]

theorem encodeFrame_eq (channel flags : UInt8) (msgId : UInt16) (hp : payload.length ≤
    linkMaxPayload) (hc : linkHeaderLen+payload.length+2 ≤ cap) : encodeFrame channel.toNat
    msgId.toNat payload flags.toNat = linkFrameEncode (Frame.ofBody linkVersion flags channel
    msgId payload) cap := by
  set f := Frame.ofBody linkVersion flags channel msgId payload with hf
  have hl : f.length.toNat = payload.length := Frame.ofBody_length hp
  have hheader : encodeHeader channel.toNat msgId.toNat payload flags.toNat = header f := by
    rw [encodeHeader,←hl,byteOf_lo,byteOf_hi,byteOf_lo,byteOf_hi,UInt8.ofNat_toNat,
      UInt8.ofNat_toNat]
    rfl
  have hflags := flags.toNat_lt
  have hchannel := channel.toNat_lt
  rw [encodeFrame,if_neg (not_lt.mpr hp),if_neg (by omega),
    linkFrameEncode_eq cap (by rw [hl]; exact hp) (by rw [hl]; exact hc),hf,Frame.ofBody_body hp,
    ←hf,←hheader]
  simp only [crc16_eq,byteOf_lo,byteOf_hi]
  rfl

theorem wordAt_seven : wordAt buf 7 = headerLength buf := wordAt_eq buf 7

/-- The frames returned and the buffer kept. -/
def extractFrames (buf : Bytes) : List HostFrame × Bytes :=
  let cur := seekMagic buf
  if cur.length < linkHeaderLen then ([],cur)
  else if linkMaxPayload < wordAt cur 7 then extractFrames cur.tail
  else if cur.length < linkHeaderLen+wordAt cur 7+2 then ([],cur)
  else match decodeFrame (cur.take (linkHeaderLen+wordAt cur 7+2)) with
    | none => extractFrames cur.tail
    | some frame =>
      (frame::(extractFrames (cur.drop (linkHeaderLen+wordAt cur 7+2))).1,
        (extractFrames (cur.drop (linkHeaderLen+wordAt cur 7+2))).2)
termination_by buf.length
decreasing_by
  all_goals
    have hs := seekMagic_length_le buf
    have hc : cur.length = (seekMagic buf).length := rfl
    simp only [linkHeaderLen] at *
    simp only [length_tail,length_drop]
    omega

theorem extractFrames_congr (h : seekMagic xs = seekMagic ys) : extractFrames xs = extractFrames
    ys := by
  conv_lhs => rw [extractFrames]
  conv_rhs => rw [extractFrames]
  rw [h]

theorem decodeFrame_item (h : frameVerdict buf = .take n) : ∃ f, decodeFrame (buf.take n) = some
    f ∧ f.raw = buf.take n := by
  obtain ⟨-,-,-,-,-,f,hf⟩ := seekMagic_take h
  exact ⟨_,by rw [decodeFrame_eq,hf]; rfl,by simp [HostFrame.ofFrame]⟩

variable (buf : Bytes)

/-- The host loop takes the decisions of the device's scanner. -/
theorem extractFrames_eq : extractFrames buf = ((scan frameScanner buf).1.filterMap
    decodeFrame,(scan frameScanner buf).2) := by
  induction buf using scan_induction (S:=frameScanner) with
  | wait buf h =>
    obtain ⟨hs,h9 | ⟨h9,hp,ht⟩⟩ := seekMagic_wait h
    · rw [extractFrames,hs,scan_wait h]
      simp [h9]
    · rw [extractFrames,hs,scan_wait h]
      simp [h9,hp,ht,wordAt_seven]
  | skip buf h ih =>
    rw [scan_skip h,← ih]
    obtain hs | ⟨hs,h9,hp | ⟨hp,ht,hd⟩⟩ := seekMagic_skip h
    · exact extractFrames_congr hs
    · rw [extractFrames,hs]
      simp [h9,hp,wordAt_seven]
    · rw [extractFrames,hs]
      simp only [h9,hp,ht,if_false,wordAt_seven,decodeFrame_eq,hd,Option.map_none]
  | take buf n h ih =>
    obtain ⟨hs,h9,hp,ht,hn,-⟩ := seekMagic_take h
    obtain ⟨f,hf,-⟩ := decodeFrame_item h
    rw [← hn] at ht
    rw [extractFrames,hs,scan_take h]
    simp only [h9,hp,ht,if_false,wordAt_seven,← hn,hf,ih,filterMap_cons]

/-- With the frames returned so far. -/
def push (st : List HostFrame × Bytes) (data : Bytes) : List HostFrame × Bytes :=
  (st.1++(extractFrames (st.2++data)).1,(extractFrames (st.2++data)).2)

def pushed (chunks : List Bytes) : List HostFrame := (chunks.foldl push ([],[])).1

variable (chunks : List Bytes)

theorem foldl_push (out : List Bytes) (buf : Bytes) : chunks.foldl push (out.filterMap
    decodeFrame,buf) = ((chunks.foldl (feed frameScanner) (out,buf)).1.filterMap decodeFrame,
    (chunks.foldl (feed frameScanner) (out,buf)).2) := by
  induction chunks generalizing out buf with
  | nil => rfl
  | cons c cs ih =>
    have hstep : push (out.filterMap decodeFrame,buf) c =
        ((feed frameScanner (out,buf) c).1.filterMap decodeFrame,
          (feed frameScanner (out,buf) c).2) := by
      simp [push,feed,extractFrames_eq]
    rw [foldl_cons,foldl_cons,hstep,ih]

/-- As in one scan, however the stream was cut. -/
theorem pushed_eq_scan : pushed chunks = (scan frameScanner chunks.flatten).1.filterMap
    decodeFrame := by
  have h := foldl_push chunks [] []
  rw [filterMap_nil] at h
  rw [pushed,h,foldl_feed]

theorem map_raw_filterMap : ((scan frameScanner buf).1.filterMap decodeFrame).map HostFrame.raw
    = (scan frameScanner buf).1 := by
  induction buf using scan_induction (S:=frameScanner) with
  | wait buf h => simp [scan_wait h]
  | skip buf h ih => rw [scan_skip h,ih]
  | take buf n h ih =>
    obtain ⟨f,hf,hraw⟩ := decodeFrame_item h
    simp [scan_take h,hf,hraw,ih]

theorem map_some_filterMap : ((scan frameScanner buf).1.filterMap decodeFrame).map some = (scan
    frameScanner buf).1.map decodeFrame := by
  induction buf using scan_induction (S:=frameScanner) with
  | wait buf h => simp [scan_wait h]
  | skip buf h ih => rw [scan_skip h,ih]
  | take buf n h ih =>
    obtain ⟨f,hf,-⟩ := decodeFrame_item h
    simp [scan_take h,hf,ih]

/-- The codec of either language inverts itself, and the two languages agree. -/
theorem codec_bijection :
    (∀ (f : Frame) (cap : ℕ), f.length.toNat ≤ linkMaxPayload →
      linkHeaderLen+f.length.toNat+2 ≤ cap → ∃ out, linkFrameEncode f cap = some out ∧
        linkFrameDecode out = some (linkHeaderLen+f.length.toNat+2,f.normalize)) ∧
    (∀ (b : Bytes) (n cap : ℕ) (f : Frame), linkFrameDecode b = some (n,f) → b.getD 2 0 ≠ 0 →
      n ≤ cap → linkFrameEncode f cap = some (b.take n)) ∧
    (∀ b : Bytes, decodeFrame b =
      (linkFrameDecode b).map fun r => HostFrame.ofFrame b r.1 r.2) ∧
    (∀ (channel flags : UInt8) (msgId : UInt16) (payload : Bytes) (cap : ℕ),
      payload.length ≤ linkMaxPayload → linkHeaderLen+payload.length+2 ≤ cap →
      encodeFrame channel.toNat msgId.toNat payload flags.toNat =
        linkFrameEncode (Frame.ofBody linkVersion flags channel msgId payload) cap) := by
  refine ⟨fun f cap hl hc => ?_,fun b n cap f hd hv hc => linkFrameEncode_decode hd hv hc,
    decodeFrame_eq,fun channel flags msgId payload cap hp hc => ?_⟩
  swap
  · exact encodeFrame_eq channel flags msgId hp hc
  have he := linkFrameEncode_eq cap hl hc
  have hd := linkFrameDecode_encode [] he
  rw [append_nil,(linkFrameEncode_some he).2.1] at hd
  exact ⟨_,he,hd⟩

/-- A frame of two bytes that leaves its version open. -/
theorem codec_bijection_two_bytes :
    ∃ out, linkFrameEncode (Frame.ofBody 0 0 chCall 7 [1,2]) linkMaxFrame = some out ∧
      linkFrameDecode out = some (13,(Frame.ofBody 0 0 chCall 7 [1,2]).normalize) :=
  codec_bijection.1 _ linkMaxFrame (by decide) (by decide)

end TinyDeviceOs.HostCodec
