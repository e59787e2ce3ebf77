import TinyDeviceOs.HostCrypto
import TinyDeviceOs.LinkSession

/-! The session of `scripts/link_codec.py`, and its agreement with `link/link_session.c`. Counters
and session ids are unbounded in Python. Methods that change the session return it in every case.
-/
namespace TinyDeviceOs.HostSession

open LittleEndian LinkFrame LinkCrypto LinkSession HostCodec HostCrypto
open List hiding Vector

inductive Raised
  | valueError (text : String)
  | runtimeError (text : String)
  | overflowError
  deriving DecidableEq

/-- The attributes of a `Session` object. -/
structure Host where
  key : Bytes
  (keyId txDir : UInt8)
  (session txCounter rxCounter : ℕ)
  isOpen : Bool
  deriving DecidableEq

def Host.init (key : Bytes) (keyId : ℕ) (txDir : UInt8) : Except Raised Host :=
  if key.length ≠ 16 then .error (.valueError "link key must be 16 bytes")
  else .ok
    { key := key
      keyId := byteOf keyId
      txDir := txDir
      session := 0
      txCounter := 0
      rxCounter := 0
      isOpen := false }

def tlvGetFrom (buf : Bytes) (tag : UInt8) (i : ℕ) : Option Bytes :=
  if i+2 ≤ buf.length then
    let n := byteAt buf (i+1)
    if buf.length < i+2+n then none
    else if buf.getD i 0 = tag then some ((buf.drop (i+2)).take n)
    else tlvGetFrom buf tag (i+2+n)
  else none
termination_by buf.length-i

def tlvGet (buf : Bytes) (tag : UInt8) : Option Bytes := tlvGetFrom buf tag 0

def nonceOf (keyId : UInt8) (session : ℕ) (direction : UInt8) (counter : ℕ) : Bytes :=
  [direction,keyId,byteOf session,byteOf (session >>> 8),byteOf counter,byteOf (counter >>> 8),
    byteOf (counter >>> 16),byteOf (counter >>> 24),byteOf (counter >>> 32),
    byteOf (counter >>> 40),byteOf (counter >>> 48),byteOf (counter >>> 56)]

variable (s : Host)

/-- `encode_hello`. No field of a Hello is too long. -/
def encodeHello (sessionId msgId : ℕ) : Option Bytes := do
  let payload ← tlvPut [] tagVersion [linkVersion]
  let payload ← tlvPut payload tagKeyId [s.keyId]
  let payload ← tlvPut payload tagSession [byteOf sessionId,byteOf (sessionId >>> 8)]
  encodeFrame chHello.toNat msgId payload 0

/-- The session afterwards, and whether it returned. -/
def acceptHello (frame : HostFrame) (sessionId : ℕ) : Host × Except Raised Unit :=
  if frame.channel ≠ chHello.toNat ∨ frame.flags &&& flagEncrypted.toNat ≠ 0 then
    (s,.error (.valueError "not a hello"))
  else
    let version := tlvGet frame.payload tagVersion
    let keyId := tlvGet frame.payload tagKeyId
    let got := (tlvGet frame.payload tagSession).getD []
    if version ≠ some [linkVersion] ∨ keyId ≠ some [s.keyId] ∨ got.length ≠ 2 then
      (s,.error (.valueError "key"))
    else
      let gotSession := wordAt got 0
      if s.txDir = dirDevice then
        ({ s with session := sessionId, txCounter := 0, rxCounter := 0, isOpen := true },.ok ())
      else if gotSession = 0 then (s,.error (.valueError "session"))
      else ({ s with session := gotSession, txCounter := 0, rxCounter := 0, isOpen := true },.ok ())

def headerBytes (version flags channel msgId length : ℕ) : Bytes :=
  [UInt8.ofNat version,UInt8.ofNat flags,UInt8.ofNat channel,byteOf msgId,byteOf (msgId >>> 8),
    byteOf length,byteOf (length >>> 8)]

/-- The exception for a number that is not a byte. -/
def byteRange : Raised := .valueError "bytes must be in range(0, 256)"

/-- The counter is spent before the frame is built. -/
def sessionSeal (channel msgId : ℕ) (pt : Bytes) : Host × Except Raised Bytes :=
  if s.isOpen = false then (s,.error (.runtimeError "session is not open"))
  else
    let counter := s.txCounter+1
    if 256^8 ≤ counter then (s,.error .overflowError)
    else if 255 < channel then (s,.error byteRange)
    else
      let body := toBytes 8 counter
      let aad := headerBytes linkVersion.toNat flagEncrypted.toNat channel msgId
        (8+pt.length+16)++body
      match aesgcmEncrypt s.key (nonceOf s.keyId s.session s.txDir counter) aad pt with
      | none => (s,.error .overflowError)
      | some (ct,tag) =>
        ({ s with txCounter := counter },
          match encodeFrame channel msgId (body++ct++tag) flagEncrypted.toNat with
          | none => .error (.valueError "payload too long")
          | some out => .ok out)

def orVersion (version : ℕ) : ℕ := if version ≠ 0 then version else linkVersion.toNat

def openDirection (txDir : UInt8) : UInt8 := if txDir = dirHost then dirDevice else dirHost

/-- The dictionary that `open_frame` returns. -/
structure Plain where
  (channel msgId : ℕ)
  payload : Bytes
  deriving DecidableEq

/-- The session afterwards, and what it returned. -/
def openFrame (frame : HostFrame) : Host × Except Raised Plain :=
  if s.isOpen = false ∨ frame.flags &&& flagEncrypted.toNat = 0 ∨ frame.payload.length < 24 then
    (s,.error (.valueError "sealed frame"))
  else
    let payload := frame.payload
    let counter := ofBytes (payload.take 8)
    if counter = 0 ∨ counter ≤ s.rxCounter then (s,.error (.valueError "replay"))
    else
      let ct := (payload.take (payload.length-16)).drop 8
      let tag := payload.drop (payload.length-16)
      let header := headerBytes (orVersion frame.version) frame.flags frame.channel frame.msgId
        payload.length
      match aesgcmDecrypt s.key (nonceOf s.keyId s.session (openDirection s.txDir) counter)
          (header++payload.take 8) ct tag with
      | none => (s,.error .overflowError)
      | some none => (s,.error (.valueError "tag"))
      | some (some pt) =>
        ({ s with rxCounter := counter },.ok ⟨frame.channel,frame.msgId,pt⟩)

structure Related (c : Session) (p : Host) : Prop where
  key : p.key = c.key.toList
  keyId : p.keyId = c.keyId
  txDir : p.txDir = c.txDir
  session : p.session = c.session.toNat
  txCounter : p.txCounter = c.txCounter.toNat
  rxCounter : p.rxCounter = c.rxCounter.toNat
  isOpen : p.isOpen = c.isOpen

theorem tlvGetFrom_eq (buf : Bytes) (tag : UInt8) (cap i : ℕ) :
    linkTlvGet tag cap (buf.drop i) =
      (tlvGetFrom buf tag i).filter fun value => decide (value.length ≤ cap) := by
  induction hn : buf.length-i using Nat.strong_induction_on generalizing i with
  | _ m ih =>
    rw [tlvGetFrom]
    by_cases hi : i+2 ≤ buf.length
    · have hdrop : buf.drop i = buf.getD i 0::buf.getD (i+1) 0::buf.drop (i+2) := by
        rw [getD_eq_getElem _ _ (by omega),getD_eq_getElem _ _ (by omega),
          drop_eq_getElem_cons (by omega),drop_eq_getElem_cons (by omega)]
      have hlen : (buf.drop (i+2)).length = buf.length-(i+2) := length_drop
      have hsize : (buf.getD (i+1) 0).toNat = byteAt buf (i+1) := rfl
      rw [if_pos hi,hdrop,linkTlvGet,hlen,hsize]
      dsimp only
      by_cases hfit : buf.length < i+2+byteAt buf (i+1)
      · rw [if_pos hfit,if_pos (by omega)]
        rfl
      · rw [if_neg hfit,if_neg (by omega)]
        by_cases ht : buf.getD i 0 = tag
        · have hvalue : ((buf.drop (i+2)).take (byteAt buf (i+1))).length =
              byteAt buf (i+1) := by
            rw [length_take,hlen]
            omega
          rw [if_pos ht,if_pos ht,Option.filter_some,hvalue]
          by_cases hc : cap < byteAt buf (i+1)
          · rw [if_pos hc,if_neg (by simpa using hc)]
          · rw [if_neg hc,if_pos (by simpa using hc)]
        · rw [if_neg ht,if_neg ht,drop_drop]
          exact ih _ (by omega) _ rfl
    · rw [if_neg hi,Option.filter_none]
      have hshort : (buf.drop i).length < 2 := by
        rw [length_drop]
        omega
      rcases hrest : buf.drop i with _ | ⟨t,_ | ⟨len,rest⟩⟩
      · exact linkTlvGet_nil tag cap
      · rw [linkTlvGet]
        rintro t' len rest h
        simp at h
      · rw [hrest] at hshort
        simp at hshort

theorem linkTlvGet_eq_some : linkTlvGet tag cap buf = some value ↔ tlvGet buf tag = some value ∧
    value.length ≤ cap := by
  have h := tlvGetFrom_eq buf tag cap 0
  rw [drop_zero] at h
  rw [h,Option.filter_eq_some_iff,tlvGet,decide_eq_true_iff]

def Host.ofSession (c : Session) : Host :=
  ⟨c.key.toList,c.keyId,c.txDir,c.session.toNat,c.txCounter.toNat,c.rxCounter.toNat,c.isOpen⟩

theorem related_iff {c : Session} {p : Host} : Related c p ↔ p = Host.ofSession c := by
  constructor
  · rintro ⟨hkey,hid,hdir,hsession,htx,hrx,hopen⟩
    cases p
    simp_all [Host.ofSession]
  · rintro rfl
    exact ⟨rfl,rfl,rfl,rfl,rfl,rfl,rfl⟩

theorem nonceOf_eq (direction : UInt8) (counter : UInt64) : nonceOf c.keyId c.session.toNat
    direction counter.toNat = (nonceFor c direction counter).toList := by
  have hcounter : [byteOf counter.toNat,byteOf (counter.toNat >>> 8),byteOf (counter.toNat >>> 16),
      byteOf (counter.toNat >>> 24),byteOf (counter.toNat >>> 32),byteOf (counter.toNat >>> 40),
      byteOf (counter.toNat >>> 48),byteOf (counter.toNat >>> 56)] = le64 counter := by
    rw [le64_eq]
    simp only [toBytes,Nat.div_div_eq_div_mul,byteOf_eq,Nat.shiftRight_eq_div_pow]
  have hbytes : (nonceFor c direction counter).toList =
      nonceBytes direction c.keyId c.session counter := rfl
  rw [hbytes,nonceBytes,←hcounter,nonceOf,byteOf_lo,byteOf_hi]
  rfl

theorem orVersion_eq (version : UInt8) :
    UInt8.ofNat (orVersion version.toNat) = wireVersion version := by
  by_cases hv : version = 0
  · rw [hv]
    rfl
  · have hnat : version.toNat ≠ 0 := fun h => hv (UInt8.toNat_inj.mp h)
    rw [orVersion,wireVersion,if_pos hv,if_pos hnat,UInt8.ofNat_toNat]

theorem headerBytes_eq (f : Frame) (version length : ℕ)
    (hv : UInt8.ofNat version = wireVersion f.version) (hl : length = f.length.toNat) :
    headerBytes version f.flags.toNat f.channel.toNat f.msgId.toNat length = headerAad f := by
  rw [headerBytes,hv,hl,UInt8.ofNat_toNat,UInt8.ofNat_toNat,byteOf_lo,byteOf_hi,byteOf_lo,byteOf_hi]
  rfl

theorem toList_ofBytes_take (h : 16 ≤ bs.length) : (Block.ofBytes bs).toList = bs.take 16 := by
  apply ext_getElem (by simp; omega)
  intro i h₁ h₂
  have hi : i < bs.length := by
    rw [length_take] at h₂
    omega
  simp [Block.ofBytes,hi]

theorem sealAad_length : (sealAad f).length = 15 := by
  simp [sealAad,headerAad,f.payload.length_eq,linkMaxPayload]

section

variable (c : Session) (channel : UInt8) (msgId : UInt16) {pt : Bytes}

theorem sealAad_eq (hp : pt.length ≤ linkMaxPayload-24) (counter : UInt64) :
    headerBytes linkVersion.toNat flagEncrypted.toNat channel.toNat msgId.toNat (8+pt.length+16)++
      toBytes 8 counter.toNat = sealAad (sealHeader channel msgId pt.length counter) := by
  have htake : (sealHeader channel msgId pt.length counter).payload.bytes.take 8 = le64 counter :=
    Payload.take_ofBytes (le64 counter) (by simp [linkMaxPayload])
  have hl : 8+pt.length+16 = (sealHeader channel msgId pt.length counter).length.toNat := by
    have hp' : pt.length ≤ 216 := hp
    change _ = (UInt16.ofNat (8+pt.length+16)).toNat
    rw [UInt16.toNat_ofNat']
    omega
  have hheader := headerBytes_eq (sealHeader channel msgId pt.length counter)
    linkVersion.toNat _ rfl hl
  rw [sealAad,htake,le64_eq,←hheader]
  rfl

theorem sealBody_length (pt : Bytes) : (le64 (c.txCounter+1)++(sealText c channel msgId pt).1++
    (sealText c channel msgId pt).2.toList).length = 8+pt.length+16 := by
  rw [length_append,length_append,le64_length,Vector.length_toList,sealText_length]

theorem sealFrame_eq_ofBody (pt : Bytes) : sealFrame c channel msgId pt =
    Frame.ofBody linkVersion flagEncrypted channel msgId (le64 (c.txCounter+1)++
      (sealText c channel msgId pt).1++(sealText c channel msgId pt).2.toList) := by
  rw [Frame.ofBody,sealBody_length c channel msgId pt]
  rfl

/-- The same bytes are written, and the same counter is spent. -/
theorem sessionSeal_eq (hc : c.txCounter.toNat < 2^64-1) (hp : pt.length ≤ linkMaxPayload-24)
    (hcap : linkHeaderLen+(24+pt.length)+2 ≤ cap) : (sessionSeal (Host.ofSession c)
    channel.toNat msgId.toNat pt).1 = Host.ofSession (linkSessionSeal c channel msgId pt cap).1
    ∧ (sessionSeal (Host.ofSession c) channel.toNat msgId.toNat pt).2.toOption =
    (linkSessionSeal c channel msgId pt cap).2 := by
  by_cases ho : c.isOpen = false
  · have hs : linkSessionSeal c channel msgId pt cap = (c,none) := by
      rw [linkSessionSeal,if_pos (.inl ho)]
    have hh : (Host.ofSession c).isOpen = false := ho
    rw [sessionSeal,if_pos hh,hs]
    exact ⟨rfl,rfl⟩
  have hp' : pt.length ≤ 216 := hp
  have hh : ¬ (Host.ofSession c).isOpen = false := ho
  have hcounter := counter_succ (c:=c.txCounter) (by omega)
  have hchannel := channel.toNat_lt
  have henc : aesgcmEncrypt c.key.toList (nonceFor c c.txDir (c.txCounter+1)).toList
      (sealAad (sealHeader channel msgId pt.length (c.txCounter+1))) pt =
      some ((sealText c channel msgId pt).1,(sealText c channel msgId pt).2.toList) :=
    aesgcmEncrypt_eq c.key _ (by rw [sealAad_length]; norm_num) (by omega)
  have hbody := sealBody_length c channel msgId pt
  have hfit : linkHeaderLen+(le64 (c.txCounter+1)++(sealText c channel msgId pt).1++
      (sealText c channel msgId pt).2.toList).length+2 ≤ cap := by
    rw [hbody]
    omega
  have hout := encodeFrame_eq channel flagEncrypted msgId
    (by rw [hbody,linkMaxPayload]; omega) hfit
  have hseal : linkSessionSeal c channel msgId pt cap = ({ c with txCounter := c.txCounter+1 },
      linkFrameEncode (sealFrame c channel msgId pt) cap) := by
    rw [linkSessionSeal,if_neg (by rintro (h | h) <;> [exact ho h; omega])]
  have haad := sealAad_eq channel msgId hp (c.txCounter+1)
  rw [hcounter] at haad
  rw [sessionSeal,if_neg hh]
  simp only [Host.ofSession,haad]
  rw [if_neg (by omega),if_neg (by omega),←hcounter,nonceOf_eq,henc,hseal,
    sealFrame_eq_ofBody c channel msgId pt,←hout,le64_eq]
  refine ⟨rfl,?_⟩
  dsimp only
  cases encodeFrame channel.toNat msgId.toNat _ flagEncrypted.toNat <;> rfl

end

section

variable (c : Session) (f : Frame)

theorem helloSession_eq : helloSession c f =
    if f.channel ≠ chHello ∨ f.flags &&& flagEncrypted ≠ 0 then none
    else if tlvGet f.body tagVersion ≠ some [linkVersion] ∨
        tlvGet f.body tagKeyId ≠ some [c.keyId] ∨
        ((tlvGet f.body tagSession).getD []).length ≠ 2 then none
    else some (u16 (((tlvGet f.body tagSession).getD []).getD 0 0)
      (((tlvGet f.body tagSession).getD []).getD 1 0)) := by
  have hversion : linkTlvGet tagVersion 1 f.body = some [linkVersion] ↔
      tlvGet f.body tagVersion = some [linkVersion] := by simp [linkTlvGet_eq_some]
  have hid : linkTlvGet tagKeyId 1 f.body = some [c.keyId] ↔
      tlvGet f.body tagKeyId = some [c.keyId] := by simp [linkTlvGet_eq_some]
  have hsession (lo hi : UInt8) : linkTlvGet tagSession 2 f.body = some [lo,hi] ↔
      tlvGet f.body tagSession = some [lo,hi] := by simp [linkTlvGet_eq_some]
  rw [helloSession]
  by_cases hkind : f.channel ≠ chHello ∨ f.flags &&& flagEncrypted ≠ 0
  · rw [if_pos hkind,if_pos hkind]
  rw [if_neg hkind,if_neg hkind]
  by_cases hv : tlvGet f.body tagVersion = some [linkVersion]
  swap
  · rw [if_pos (fun h => hv (hversion.mp h)),if_pos (.inl hv)]
  by_cases hk : tlvGet f.body tagKeyId = some [c.keyId]
  swap
  · rw [if_neg (not_not.mpr (hversion.mpr hv)),if_pos (fun h => hk (hid.mp h)),
      if_pos (.inr (.inl hk))]
  rw [if_neg (not_not.mpr (hversion.mpr hv)),if_neg (not_not.mpr (hid.mpr hk))]
  by_cases hs : ((tlvGet f.body tagSession).getD []).length = 2
  · obtain ⟨lo,hi,hgot⟩ := length_eq_two.mp hs
    have hget : tlvGet f.body tagSession = some [lo,hi] := by
      cases ht : tlvGet f.body tagSession with
      | none => simp [ht] at hgot
      | some value => simpa [ht] using hgot
    rw [if_neg (by simp [hv,hk,hs]),(hsession lo hi).mpr hget,hgot]
    rfl
  · rw [if_pos (.inr (.inr hs))]
    split
    · rename_i lo hi hget
      exact absurd (by rw [(hsession lo hi).mp hget]; rfl) hs
    · rfl

/-- Both sides judge a Hello alike. -/
theorem acceptHello_eq (raw : Bytes) (used : ℕ) (sessionId : UInt16) :
    (acceptHello (Host.ofSession c) (HostFrame.ofFrame raw used f) sessionId.toNat).1 =
        Host.ofSession (linkSessionAcceptHello c f sessionId).1 ∧
      ((acceptHello (Host.ofSession c) (HostFrame.ofFrame raw used f) sessionId.toNat).2 = .ok () ↔
        (linkSessionAcceptHello c f sessionId).2 = true) := by
  have hkind : (f.channel.toNat ≠ chHello.toNat ∨ f.flags.toNat &&& flagEncrypted.toNat ≠ 0) ↔
      (f.channel ≠ chHello ∨ f.flags &&& flagEncrypted ≠ 0) := by
    rw [←UInt8.toNat_and,ne_eq,ne_eq,UInt8.toNat_inj,←UInt8.toNat_zero,UInt8.toNat_inj]
  have hhello := helloSession_eq c f
  set got := (tlvGet f.body tagSession).getD [] with hgot
  set host := acceptHello (Host.ofSession c) (HostFrame.ofFrame raw used f) sessionId.toNat with hhost
  simp only [acceptHello,HostFrame.ofFrame,Host.ofSession,←hgot,wordAt_eq] at hhost
  by_cases hk : f.channel ≠ chHello ∨ f.flags &&& flagEncrypted ≠ 0
  · rw [if_pos hk] at hhello
    rw [if_pos (hkind.mpr hk)] at hhost
    rw [hhost,linkSessionAcceptHello,hhello]
    exact ⟨rfl,by simp⟩
  rw [if_neg hk] at hhello
  rw [if_neg (fun h => hk (hkind.mp h))] at hhost
  by_cases hfields : tlvGet f.body tagVersion ≠ some [linkVersion] ∨
      tlvGet f.body tagKeyId ≠ some [c.keyId] ∨ got.length ≠ 2
  · rw [if_pos hfields] at hhello hhost
    rw [hhost,linkSessionAcceptHello,hhello]
    exact ⟨rfl,by simp⟩
  rw [if_neg hfields] at hhello hhost
  rw [linkSessionAcceptHello,hhello]
  dsimp only
  by_cases hdir : c.txDir = dirDevice
  · rw [if_pos hdir] at hhost ⊢
    rw [hhost]
    exact ⟨rfl,by simp⟩
  rw [if_neg hdir] at hhost ⊢
  have hnat : (u16 (got.getD 0 0) (got.getD (0+1) 0)).toNat = 0 ↔
      u16 (got.getD 0 0) (got.getD 1 0) = 0 := by
    rw [←UInt16.toNat_inj]
    rfl
  by_cases hzero : u16 (got.getD 0 0) (got.getD 1 0) = 0
  · rw [if_pos (hnat.mpr hzero)] at hhost
    rw [if_pos hzero,hhost]
    exact ⟨rfl,by simp⟩
  · rw [if_neg (fun h => hzero (hnat.mp h))] at hhost
    rw [if_neg hzero,hhost]
    exact ⟨rfl,by simp⟩

end

def Plain.ofFrame (f : Frame) : Plain := ⟨f.channel.toNat,f.msgId.toNat,f.body⟩

section

theorem take_eight {bs : Bytes} (h : 8 ≤ bs.length) : bs.take 8 = [bs.getD 0 0,bs.getD 1 0,
    bs.getD 2 0,bs.getD 3 0,bs.getD 4 0,bs.getD 5 0,bs.getD 6 0,bs.getD 7 0] := by
  match bs,h with
  | _::_::_::_::_::_::_::_::_,_ => rfl

theorem linkAesgcmDecrypt_length (h : linkAesgcmDecrypt key nonce aad ct tag = some pt) :
    pt.length = ct.length := by
  simp only [linkAesgcmDecrypt] at h
  split_ifs at h
  rw [←Option.some.inj h,ctrXor_length]

variable (c : Session) {f : Frame}

theorem body_take_eight (h24 : 24 ≤ f.length.toNat) : f.body.take 8 = f.payload.bytes.take 8 := by
  rw [Frame.body,take_take,min_eq_left (by omega)]

theorem frameCounter_toNat (h24 : 24 ≤ f.length.toNat) :
    (frameCounter f).toNat = ofBytes (f.body.take 8) := by
  rw [body_take_eight h24,take_eight (by rw [f.payload.length_eq,linkMaxPayload]; omega),
    frameCounter,u64_toNat]

theorem unencrypted_iff :
    f.flags.toNat &&& flagEncrypted.toNat = 0 ↔ f.flags &&& flagEncrypted = 0 := by
  rw [←UInt8.toNat_and,←UInt8.toNat_zero,UInt8.toNat_inj]

theorem replayed_iff (h24 : 24 ≤ f.length.toNat) :
    (ofBytes (f.body.take 8) = 0 ∨ ofBytes (f.body.take 8) ≤ c.rxCounter.toNat) ↔
      (frameCounter f = 0 ∨ frameCounter f ≤ c.rxCounter) := by
  rw [←frameCounter_toNat h24,←UInt64.le_iff_toNat_le,←UInt64.toNat_zero,UInt64.toNat_inj]

theorem body_text (h24 : 24 ≤ f.length.toNat) :
    (f.body.take (f.length.toNat-16)).drop 8 =
      (f.payload.bytes.drop 8).take (f.length.toNat-24) := by
  rw [Frame.body,take_take,drop_take]
  congr 1
  omega

variable (hl : f.length.toNat ≤ linkMaxPayload)
include hl

theorem body_tag (h24 : 24 ≤ f.length.toNat) : f.body.drop (f.length.toNat-16) =
    (Block.ofBytes (f.payload.bytes.drop (8+(f.length.toNat-24)))).toList := by
  have hpay := f.payload.length_eq
  rw [toList_ofBytes_take (by rw [length_drop,hpay]; omega),Frame.body,drop_take]
  congr 1
  · omega
  · congr 1
    omega

theorem openFrame_decrypt (h24 : 24 ≤ f.length.toNat) :
    aesgcmDecrypt c.key.toList
        (nonceOf c.keyId c.session.toNat (openDirection c.txDir) (ofBytes (f.body.take 8)))
        (headerBytes (orVersion f.version.toNat) f.flags.toNat f.channel.toNat f.msgId.toNat
          f.length.toNat++f.body.take 8)
        ((f.body.take (f.length.toNat-16)).drop 8) (f.body.drop (f.length.toNat-16)) =
      some (linkAesgcmDecrypt c.key (nonceFor c (peerDirection c.txDir) (frameCounter f))
        (sealAad f) ((f.payload.bytes.drop 8).take (f.length.toNat-24))
        (Block.ofBytes (f.payload.bytes.drop (8+(f.length.toNat-24))))) := by
  have hmax : f.length.toNat ≤ 240 := hl
  have haad : headerBytes (orVersion f.version.toNat) f.flags.toNat f.channel.toNat f.msgId.toNat
      f.length.toNat++f.body.take 8 = sealAad f := by
    rw [headerBytes_eq f _ _ (orVersion_eq f.version) rfl,body_take_eight h24,sealAad]
  have hdir : openDirection c.txDir = peerDirection c.txDir := rfl
  have haadBits : (sealAad f).length*8 < 2^64 := by
    rw [sealAad_length]
    norm_num
  have htextBits : ((f.payload.bytes.drop 8).take (f.length.toNat-24)).length*8 < 2^64 := by
    rw [length_take]
    omega
  rw [haad,body_text h24,body_tag hl h24,←frameCounter_toNat h24,hdir,nonceOf_eq]
  exact aesgcmDecrypt_eq c.key (nonceFor c (peerDirection c.txDir) (frameCounter f))
    haadBits htextBits (Block.ofBytes (f.payload.bytes.drop (8+(f.length.toNat-24))))

theorem openedFrame_body (hpt : pt.length = f.length.toNat-24) :
    (⟨f.version,flags,f.channel,f.msgId,UInt16.ofNat (f.length.toNat-24), Payload.ofBytes pt⟩ :
    Frame).body = pt := by
  have hmax : f.length.toNat ≤ 240 := hl
  rw [←hpt]
  exact Frame.ofBody_body (by rw [hpt]; omega)

theorem plaintext_length (h : linkAesgcmDecrypt key nonce aad ((f.payload.bytes.drop 8).take
    (f.length.toNat-24)) tag = some pt) : pt.length = f.length.toNat-24 := by
  have hmax : f.length.toNat ≤ 240 := hl
  rw [linkAesgcmDecrypt_length h,length_take,length_drop,f.payload.length_eq,
    linkMaxPayload]
  omega

/-- The same verdict, fields and window. -/
theorem openFrame_eq (raw : Bytes) (used : ℕ) :
    (openFrame (Host.ofSession c) (HostFrame.ofFrame raw used f)).1 =
        Host.ofSession (linkSessionOpen c f).1 ∧
      (openFrame (Host.ofSession c) (HostFrame.ofFrame raw used f)).2.toOption =
        (linkSessionOpen c f).2.map Plain.ofFrame := by
  have hbody := Frame.body_length hl
  set host := openFrame (Host.ofSession c) (HostFrame.ofFrame raw used f) with hhost
  simp only [openFrame,HostFrame.ofFrame,Host.ofSession,hbody] at hhost
  by_cases ho : c.isOpen = false
  · rw [if_pos (.inl ho)] at hhost
    rw [hhost,linkSessionOpen,if_pos ho]
    exact ⟨rfl,rfl⟩
  by_cases hkind : f.flags &&& flagEncrypted = 0 ∨ f.length.toNat < 24
  · rw [if_pos (.inr (hkind.imp_left unencrypted_iff.mpr))] at hhost
    rw [hhost,linkSessionOpen,if_neg ho,if_pos hkind]
    exact ⟨rfl,rfl⟩
  have h24 : 24 ≤ f.length.toNat := by omega
  have hsealed : ¬ (c.isOpen = false ∨ f.flags.toNat &&& flagEncrypted.toNat = 0 ∨
      f.length.toNat < 24) := by
    rintro (h | h)
    · exact ho h
    · exact hkind (h.imp_left unencrypted_iff.mp)
  have hwindow := replayed_iff c h24
  rw [if_neg hsealed] at hhost
  rw [linkSessionOpen,if_neg ho,if_neg hkind]
  dsimp only
  by_cases hreplay : frameCounter f = 0 ∨ frameCounter f ≤ c.rxCounter
  · rw [if_pos (hwindow.mpr hreplay)] at hhost
    rw [hhost,if_pos hreplay]
    exact ⟨rfl,rfl⟩
  rw [if_neg (fun h => hreplay (hwindow.mp h)),openFrame_decrypt c hl h24] at hhost
  rw [if_neg hreplay]
  cases hd : linkAesgcmDecrypt c.key (nonceFor c (peerDirection c.txDir) (frameCounter f))
      (sealAad f) ((f.payload.bytes.drop 8).take (f.length.toNat-24))
      (Block.ofBytes (f.payload.bytes.drop (8+(f.length.toNat-24)))) with
  | none =>
    rw [hd] at hhost
    rw [hhost]
    exact ⟨rfl,rfl⟩
  | some pt =>
    rw [hd,←frameCounter_toNat h24] at hhost
    rw [hhost]
    refine ⟨rfl,?_⟩
    dsimp only [Option.map_some]
    rw [Plain.ofFrame,openedFrame_body hl (plaintext_length hl hd)]
    rfl

end

/-- Host and device run the same session protocol, and the two ciphers are the same. -/
theorem session_protocols_agree {c : Session} {p : Host} (h : Related c p) :
    (∀ (channel : UInt8) (msgId : UInt16) (pt : Bytes) (cap : ℕ), c.txCounter.toNat < 2^64-1 →
      pt.length ≤ linkMaxPayload-24 → linkHeaderLen+(24+pt.length)+2 ≤ cap →
      (sessionSeal p channel.toNat msgId.toNat pt).2.toOption =
          (linkSessionSeal c channel msgId pt cap).2 ∧
        Related (linkSessionSeal c channel msgId pt cap).1
          (sessionSeal p channel.toNat msgId.toNat pt).1) ∧
    (∀ (f : Frame) (raw : Bytes) (used : ℕ) (sessionId : UInt16),
      f.length.toNat ≤ linkMaxPayload →
      ((acceptHello p (HostFrame.ofFrame raw used f) sessionId.toNat).2 = .ok () ↔
          (linkSessionAcceptHello c f sessionId).2 = true) ∧
        Related (linkSessionAcceptHello c f sessionId).1
          (acceptHello p (HostFrame.ofFrame raw used f) sessionId.toNat).1) ∧
    (∀ (f : Frame) (raw : Bytes) (used : ℕ), f.length.toNat ≤ linkMaxPayload →
      (openFrame p (HostFrame.ofFrame raw used f)).2.toOption =
          (linkSessionOpen c f).2.map Plain.ofFrame ∧
        Related (linkSessionOpen c f).1 (openFrame p (HostFrame.ofFrame raw used f)).1) ∧
    (∀ (key tag : Block) (nonce : Nonce) (aad text : Bytes), aad.length*8 < 2^64 →
      text.length*8 < 2^64 →
      aesgcmEncrypt key.toList nonce.toList aad text =
          some ((linkAesgcmEncrypt key nonce aad text).1,
            (linkAesgcmEncrypt key nonce aad text).2.toList) ∧
        aesgcmDecrypt key.toList nonce.toList aad text tag.toList =
          some (linkAesgcmDecrypt key nonce aad text tag)) := by
  obtain rfl := related_iff.mp h
  refine ⟨?_,?_,?_,?_⟩
  · intro channel msgId pt cap hc hp hcap
    obtain ⟨hpair,hout⟩ := sessionSeal_eq c channel msgId hc hp hcap
    exact ⟨hout,related_iff.mpr hpair⟩
  · intro f raw used sessionId _
    obtain ⟨hpair,hok⟩ := acceptHello_eq c f raw used sessionId
    exact ⟨hok,related_iff.mpr hpair⟩
  · intro f raw used hl
    obtain ⟨hpair,hplain⟩ := openFrame_eq c hl raw used
    exact ⟨hplain,related_iff.mpr hpair⟩
  · intro key tag nonce aad text ha ht
    exact ⟨aesgcmEncrypt_eq key nonce ha ht,aesgcmDecrypt_eq key nonce ha ht tag⟩

/-- An open pair of sessions whose last counter was 4 seals the same two bytes alike. -/
theorem session_protocols_agree_two_bytes :
    (sessionSeal ⟨replicate 16 0,1,dirHost,7,4,2,true⟩ 1 9 [1,2]).2.toOption =
      (linkSessionSeal ⟨Vector.replicate 16 0,1,7,4,2,dirHost,true⟩ chCall 9 [1,2] linkMaxFrame).2 :=
  ((session_protocols_agree (c:=⟨Vector.replicate 16 0,1,7,4,2,dirHost,true⟩)
    (p:=⟨replicate 16 0,1,dirHost,7,4,2,true⟩) ⟨rfl,rfl,rfl,rfl,rfl,rfl,rfl⟩).1 chCall 9 [1,2]
      linkMaxFrame (by decide) (by decide) (by decide)).1

end TinyDeviceOs.HostSession
