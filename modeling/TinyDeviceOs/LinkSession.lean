import TinyDeviceOs.LinkCrypto
import TinyDeviceOs.LinkFrame

/-! Sessions of `link/link_session.c`. Functions that change the session return it in every case,
also when they fail. -/
namespace TinyDeviceOs.LinkSession

open LittleEndian LinkFrame LinkCrypto
open List hiding Vector

def dirHost : UInt8 := 0
def dirDevice : UInt8 := 1

def tagVersion : UInt8 := 1
def tagKeyId : UInt8 := 2
def tagSession : UInt8 := 3

/-- `link_session_t`. -/
structure Session where
  key : Block
  keyId : UInt8
  session : UInt16
  (txCounter rxCounter : UInt64)
  txDir : UInt8
  isOpen : Bool
  deriving DecidableEq

def linkSessionInit (key : Option Block) (keyId txDir : UInt8) : Session :=
  { key := key.getD (Vector.replicate 16 0)
    keyId := keyId
    session := 0
    txCounter := 0
    rxCounter := 0
    txDir := txDir
    isOpen := false }

def nonceBytes (direction keyId : UInt8) (session : UInt16) (counter : UInt64) : Bytes :=
  [direction,keyId]++le16 session++le64 counter

section

variable (s : Session)

def nonceFor (direction : UInt8) (counter : UInt64) : Nonce :=
  ⟨(nonceBytes direction s.keyId s.session counter).toArray,by simp [nonceBytes]⟩

theorem nonceFor_inj {s t : Session} {d e : UInt8} {c c' : UInt64} :
    nonceFor s d c = nonceFor t e c' ↔
      d = e ∧ s.keyId = t.keyId ∧ s.session = t.session ∧ c = c' := by
  constructor
  · intro h
    have hb : nonceBytes d s.keyId s.session c = nonceBytes e t.keyId t.session c' := by
      simpa [nonceFor] using h
    simp only [nonceBytes,cons_append,nil_append,
      cons.injEq] at hb
    obtain ⟨hd,hk,hrest⟩ := hb
    obtain ⟨hs,hc⟩ := append_inj hrest (by simp)
    refine ⟨hd,hk,?_,le64_injective hc⟩
    have hu := congrArg (fun l : Bytes => u16 (l.getD 0 0) (l.getD 1 0)) hs
    simpa [le16] using hu
  · rintro ⟨rfl,hk,hs,rfl⟩
    simp [nonceFor,hk,hs]

def helloPayload (keyId : UInt8) (sessionId : UInt16) : Option Bytes := do
  let buf ← linkTlvPutU8 [] linkMaxPayload tagVersion linkVersion
  let buf ← linkTlvPutU8 buf linkMaxPayload tagKeyId keyId
  linkTlvPutU16 buf linkMaxPayload tagSession sessionId

def linkSessionEncodeHello (sessionId msgId : UInt16) (cap : ℕ) : Option Bytes :=
  match helloPayload s.keyId sessionId with
  | none => none
  | some body => linkFrameEncode (Frame.ofBody linkVersion 0 chHello msgId body) cap

variable (f : Frame)

/-- The session id of a Hello whose fields are in order. -/
def helloSession : Option UInt16 :=
  if f.channel ≠ chHello ∨ f.flags &&& flagEncrypted ≠ 0 then none
  else if linkTlvGet tagVersion 1 f.body ≠ some [linkVersion] then none
  else if linkTlvGet tagKeyId 1 f.body ≠ some [s.keyId] then none
  else match linkTlvGet tagSession 2 f.body with
    | some [lo,hi] => some (u16 lo hi)
    | _ => none

/-- The session afterwards, and whether it returned `0`. -/
def linkSessionAcceptHello (sessionId : UInt16) : Session × Bool :=
  match helloSession s f with
  | none => (s,false)
  | some got =>
    if s.txDir = dirDevice then
      ({ s with session := sessionId, txCounter := 0, rxCounter := 0, isOpen := true },true)
    else if got = 0 then (s,false)
    else ({ s with session := got, txCounter := 0, rxCounter := 0, isOpen := true },true)

def headerAad : Bytes :=
  [wireVersion f.version,f.flags,f.channel]++le16 f.msgId++le16 f.length

variable (channel : UInt8) (msgId : UInt16)

def sealHeader (ptLen : ℕ) (counter : UInt64) : Frame :=
  ⟨linkVersion,flagEncrypted,channel,msgId,UInt16.ofNat (8+ptLen+16),Payload.ofBytes (le64 counter)⟩

def sealAad : Bytes := headerAad f++f.payload.bytes.take 8

def sealFrame (pt : Bytes) : Frame :=
  let counter := s.txCounter+1
  let frame := sealHeader channel msgId pt.length counter
  let (ct,tag) := linkAesgcmEncrypt s.key (nonceFor s s.txDir counter) (sealAad frame) pt
  { frame with payload := Payload.ofBytes (le64 counter++ct++tag.toList) }

/-- The counter is spent even when the output does not fit. -/
def linkSessionSeal (pt : Bytes) (cap : ℕ) :
    Session × Option Bytes :=
  if s.isOpen = false ∨ linkMaxPayload-24 < pt.length then (s,none)
  else ({ s with txCounter := s.txCounter+1 },linkFrameEncode (sealFrame s channel msgId pt) cap)

def frameCounter : UInt64 :=
  let b (i : ℕ) := f.payload.bytes.getD i 0
  u64 (b 0) (b 1) (b 2) (b 3) (b 4) (b 5) (b 6) (b 7)

def peerDirection (txDir : UInt8) : UInt8 := if txDir = dirHost then dirDevice else dirHost

/-- The session afterwards, and the frame if it returned `0`. -/
def linkSessionOpen : Session × Option Frame :=
  if s.isOpen = false then (s,none)
  else if f.flags &&& flagEncrypted = 0 ∨ f.length.toNat < 24 then (s,none)
  else
    let counter := frameCounter f
    if counter = 0 ∨ counter ≤ s.rxCounter then (s,none)
    else
      let ctLen := f.length.toNat-24
      match linkAesgcmDecrypt s.key (nonceFor s (peerDirection s.txDir) counter) (sealAad f)
          ((f.payload.bytes.drop 8).take ctLen)
          (Block.ofBytes (f.payload.bytes.drop (8+ctLen))) with
      | none => (s,none)
      | some pt =>
        ({ s with rxCounter := counter },
          some ⟨f.version,f.flags &&& ~~~flagEncrypted,f.channel,f.msgId,UInt16.ofNat ctLen,
            Payload.ofBytes pt⟩)

theorem counter_succ {c : UInt64} (h : c.toNat+1 < 2^64) : (c+1).toNat = c.toNat+1 := by
  rw [UInt64.toNat_add,UInt64.toNat_one]
  exact Nat.mod_eq_of_lt h

theorem helloPayload_eq (keyId : UInt8) (sessionId : UInt16) :
    helloPayload keyId sessionId =
      some ([tagVersion,1,linkVersion,tagKeyId,1,keyId,tagSession,2]++le16 sessionId) := rfl

theorem linkSessionEncodeHello_some (sessionId msgId : UInt16) : ∃ out, linkSessionEncodeHello s
    sessionId msgId linkMaxFrame = some out ∧ out.length = 21 := by
  have hl : (Frame.ofBody linkVersion 0 chHello msgId ([tagVersion,1,linkVersion,tagKeyId,1,
      s.keyId,tagSession,2]++le16 sessionId)).length.toNat = 10 :=
    Frame.ofBody_length (by simp [linkMaxPayload])
  refine ⟨_,by
    rw [linkSessionEncodeHello,helloPayload_eq]
    exact linkFrameEncode_eq _ (by rw [hl]; decide) (by rw [hl]; decide),?_⟩
  rw [length_append,length_append,header_length,Frame.body_length (by rw [hl]; decide),
    hl,le16_length]
  rfl

theorem linkSessionAcceptHello_cases (sessionId : UInt16) :
    linkSessionAcceptHello s f sessionId = (s,false) ∨
      ∃ sid, linkSessionAcceptHello s f sessionId =
        ({ s with session := sid, txCounter := 0, rxCounter := 0, isOpen := true },true) := by
  rw [linkSessionAcceptHello]
  split
  · exact .inl rfl
  · split_ifs
    · exact .inr ⟨_,rfl⟩
    · exact .inl rfl
    · exact .inr ⟨_,rfl⟩

end

/-- Refused without effect, or the window moves to its counter. -/
theorem linkSessionOpen_cases :
    linkSessionOpen s f = (s,none) ∨
      s.isOpen = true ∧ frameCounter f ≠ 0 ∧ s.rxCounter < frameCounter f ∧
        ∃ plain, linkSessionOpen s f = ({ s with rxCounter := frameCounter f },some plain) := by
  simp only [linkSessionOpen]
  split_ifs with ho hf hc
  · exact .inl rfl
  · exact .inl rfl
  · exact .inl rfl
  · push Not at hc
    split
    · exact .inl rfl
    · exact .inr ⟨by simpa using ho,hc.1,UInt64.not_le.mp hc.2,_,rfl⟩

section

variable (s : Session) (channel : UInt8) (msgId : UInt16) {pt : Bytes}

def sealText (pt : Bytes) : Bytes × Block :=
  linkAesgcmEncrypt s.key (nonceFor s s.txDir (s.txCounter+1))
    (sealAad (sealHeader channel msgId pt.length (s.txCounter+1))) pt

theorem sealText_length : (sealText s channel msgId pt).1.length = pt.length :=
  linkAesgcmEncrypt_length ..

section

variable (h : pt.length ≤ linkMaxPayload-24)
include h

theorem sealFrame_payload :
    (sealFrame s channel msgId pt).payload.bytes =
      le64 (s.txCounter+1)++(sealText s channel msgId pt).1++
        (sealText s channel msgId pt).2.toList++replicate (linkMaxPayload-(24+pt.length)) 0 := by
  have hl : (le64 (s.txCounter+1)++(sealText s channel msgId pt).1++
      (sealText s channel msgId pt).2.toList).length = 24+pt.length := by
    simp only [length_append,le64_length,sealText_length,Vector.length_toList]
    omega
  have hp := Payload.ofBytes_bytes (le64 (s.txCounter+1)++(sealText s channel msgId pt).1++
    (sealText s channel msgId pt).2.toList) (by simp only [hl,linkMaxPayload] at *; omega)
  rw [hl] at hp
  exact hp

theorem sealFrame_length :
    (sealFrame s channel msgId pt).length.toNat = 24+pt.length := by
  simp only [linkMaxPayload] at h
  change (UInt16.ofNat (8+pt.length+16)).toNat = 24+pt.length
  rw [UInt16.toNat_ofNat']
  omega

theorem sealFrame_normalize :
    (sealFrame s channel msgId pt).normalize = sealFrame s channel msgId pt := by
  have hbody : (sealFrame s channel msgId pt).body = le64 (s.txCounter+1)++
      (sealText s channel msgId pt).1++(sealText s channel msgId pt).2.toList := by
    rw [Frame.body,sealFrame_payload s channel msgId h,sealFrame_length s channel msgId h]
    apply take_left'
    simp only [length_append,le64_length,sealText_length,Vector.length_toList]
    omega
  rw [Frame.normalize,hbody]
  rfl

theorem sealAad_sealFrame :
    sealAad (sealFrame s channel msgId pt) =
      sealAad (sealHeader channel msgId pt.length (s.txCounter+1)) := by
  have hhead : (sealHeader channel msgId pt.length (s.txCounter+1)).payload.bytes.take 8 =
      le64 (s.txCounter+1) :=
    Payload.take_ofBytes (le64 (s.txCounter+1)) (by simp [linkMaxPayload])
  rw [sealAad,sealAad,hhead,sealFrame_payload s channel msgId h,append_assoc,
    append_assoc,take_left' le64_length]
  rfl

theorem frameCounter_sealFrame :
    frameCounter (sealFrame s channel msgId pt) = s.txCounter+1 := by
  rw [frameCounter,sealFrame_payload s channel msgId h]
  exact u64_toBytes rfl

end

theorem linkSessionOpen_sealFrame (hk : r.key = s.key) (hid : r.keyId = s.keyId)
    (hs : r.session = s.session) (hdir : peerDirection r.txDir = s.txDir) (ho : r.isOpen = true)
    (h : pt.length ≤ linkMaxPayload-24) :
    linkSessionOpen r (sealFrame s channel msgId pt) =
      if s.txCounter+1 = 0 ∨ s.txCounter+1 ≤ r.rxCounter then (r,none)
      else ({ r with rxCounter := s.txCounter+1 },
        some (Frame.ofBody linkVersion 0 channel msgId pt)) := by
  have hflags : (sealFrame s channel msgId pt).flags &&& flagEncrypted ≠ 0 := by
    change flagEncrypted &&& flagEncrypted ≠ 0
    decide
  have hn : nonceFor r (peerDirection r.txDir) (s.txCounter+1) =
      nonceFor s s.txDir (s.txCounter+1) := nonceFor_inj.mpr ⟨hdir,hid,hs,rfl⟩
  have hct : (((sealFrame s channel msgId pt).payload.bytes.drop 8).take (24+pt.length-24)) =
      (sealText s channel msgId pt).1 := by
    rw [sealFrame_payload s channel msgId h]
    simp only [append_assoc]
    rw [drop_left' le64_length,take_left']
    rw [sealText_length]
    omega
  have htag : Block.ofBytes ((sealFrame s channel msgId pt).payload.bytes.drop
      (8+(24+pt.length-24))) = (sealText s channel msgId pt).2 := by
    rw [sealFrame_payload s channel msgId h,append_assoc,drop_left',
      Block.ofBytes_toList_append]
    rw [length_append,le64_length,sealText_length]
    omega
  rw [linkSessionOpen]
  simp only [ho,hflags,sealFrame_length s channel msgId h,frameCounter_sealFrame s channel msgId h,
    sealAad_sealFrame s channel msgId h,hk,hn,hct,htag]
  have hdec : linkAesgcmDecrypt s.key (nonceFor s s.txDir (s.txCounter+1))
      (sealAad (sealHeader channel msgId pt.length (s.txCounter+1)))
      (sealText s channel msgId pt).1 (sealText s channel msgId pt).2 = some pt :=
    linkAesgcmDecrypt_encrypt ..
  have hplain : (⟨linkVersion,flagEncrypted &&& ~~~flagEncrypted,channel,msgId,
      UInt16.ofNat (24+pt.length-24),Payload.ofBytes pt⟩ : Frame) =
      Frame.ofBody linkVersion 0 channel msgId pt := by
    rw [Frame.ofBody,Nat.add_sub_cancel_left]
    rfl
  simp only [hdec,← hplain]
  rw [if_neg (by simp),if_neg (by simp)]
  rfl

def sealWire (pt : Bytes) : Bytes :=
  (linkFrameEncode (sealFrame s channel msgId pt) linkMaxFrame).getD []

section

variable (h : pt.length ≤ linkMaxPayload-24)
include h

theorem linkFrameEncode_sealFrame : linkFrameEncode (sealFrame s channel msgId pt) linkMaxFrame
    = some (sealWire s channel msgId pt) := by
  have hl := sealFrame_length s channel msgId h
  have he := linkFrameEncode_eq (f:=sealFrame s channel msgId pt) linkMaxFrame
    (by simp only [linkMaxPayload] at *; omega)
    (by simp only [linkMaxFrame,linkMaxPayload] at *; omega)
  rw [sealWire,he]
  rfl

theorem sealWire_length : (sealWire s channel msgId pt).length = 35+pt.length := by
  have he := linkFrameEncode_sealFrame s channel msgId h
  rw [(linkFrameEncode_some he).2.1,sealFrame_length s channel msgId h,linkHeaderLen]
  omega

theorem linkFrameDecode_sealWire : linkFrameDecode (sealWire s channel msgId pt) = some
    ((sealWire s channel msgId pt).length,sealFrame s channel msgId pt) := by
  have hd := linkFrameDecode_encode [] (linkFrameEncode_sealFrame s channel msgId h)
  rwa [append_nil,sealFrame_normalize _ _ _ h] at hd

end

theorem linkSessionSeal_open {s : Session} (ho : s.isOpen = true)
    (h : pt.length ≤ linkMaxPayload-24) :
    linkSessionSeal s channel msgId pt linkMaxFrame =
      ({ s with txCounter := s.txCounter+1 },some (sealWire s channel msgId pt)) := by
  rw [linkSessionSeal,if_neg (by simp only [ho]; simpa using h),
    linkFrameEncode_sealFrame s channel msgId h]

end

end TinyDeviceOs.LinkSession
