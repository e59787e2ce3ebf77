import TinyDeviceOs.BridgeSends
import TinyDeviceOs.HostLink
import TinyDeviceOs.Runs

/-! A host's `Link` and a device's bridge with the same key, joined by two byte pipes that lose
nothing. How many bytes a read returns and when the device runs is up to the run. One history is
kept: what `link_dispatch_call` answered, with the counter and the payload of the call. -/
namespace TinyDeviceOs.LinkSystem

open LittleEndian LinkFrame LinkCrypto LinkSession LinkStream LinkDispatch TtyService LinkBridge
open List
  BridgeRx BridgeSends FramePipe HostCodec HostCalls HostSession HostLink

variable {ω : Type}

structure System (ω : Type) where
  host : Link
  device : Bridge ω
  (up down : Bytes)
  answers : List (ℕ × Bytes × Reply)

/-- With the bytes that are read and the room of the device. -/
inductive Op
  | read (n : ℕ)
  | call (c : HostCall)
  | sendTty (data : Bytes)
  | takeTty (n : ℕ)
  | poll (n : ℕ)
  | deviceRx (n cap : ℕ)
  | devicePoll (nowMs : UInt32) (cap : ℕ)

def start (key : Block) (keyId : UInt8) (world : ω) : System ω where
  host := Link.init ⟨key.toList,keyId,dirHost,0,0,0,false⟩
  device := linkBridgeInit (some key) keyId world
  up := offer ⟨key.toList,keyId,dirHost,0,0,0,false⟩
  down := []
  answers := []

/-- Nothing when the bridge returned `-1`. -/
def sent (r : Result ω) : Bytes :=
  match r.ret with
  | some _ => r.written
  | none => []

/-- The answer that `on_wire` asks for. -/
def dispatched (e : Env ω) (c : Core ω) (raw : Bytes) : Option (ℕ × Bytes × Reply) :=
  match linkFrameDecode raw with
  | none => none
  | some (_,f) =>
    if isHello f then none
    else match (linkSessionOpen c.session f).2 with
      | none => none
      | some plain =>
        if plain.channel = chCall then
          some ((frameCounter f).toNat,plain.body,
            (linkDispatchCall (handlers e) plain.body linkMaxPayload c.device).2)
        else none

def hostRead (s : System ω) (n : ℕ) : System ω :=
  let chunk := s.down.take (min n 64)
  let rest := s.down.drop (min n 64)
  match s.host.phase with
  | .handshake reads =>
    let r := handshakeRead s.host reads chunk
    { s with host := r.1, up := s.up++r.2, down := rest }
  | .call counter reads => { s with host := callRead s.host counter reads chunk, down := rest }
  | .idle => s
  | .failed => s

section

variable {s : System ω}

theorem hostRead_still (h : s.host.phase = .idle ∨ s.host.phase = .failed) : hostRead s n = s := by
  rcases h with h | h
  · rw [hostRead,h]
  · rw [hostRead,h]

theorem hostRead_greeting (n : ℕ) (h : s.host.phase = .handshake reads) :
    hostRead s n =
      { s with
        host := (handshakeRead s.host reads (s.down.take (min n 64))).1
        up := s.up++(handshakeRead s.host reads (s.down.take (min n 64))).2
        down := s.down.drop (min n 64) } := by
  rw [hostRead,h]

theorem hostRead_calling {counter reads : ℕ} (h : s.host.phase = .call counter reads) :
    hostRead s n =
      { s with
        host := callRead s.host counter reads (s.down.take (min n 64))
        down := s.down.drop (min n 64) } := by
  rw [hostRead,h]

end

variable (e : Env ω) (sh : Shell (Device ω))

/-- A link is used between calls only, and reads at most 256 bytes. -/
def step (s : System ω) : Op → System ω
  | .read n => hostRead s n
  | .call c =>
    if s.host.phase = .idle then
      { s with host := (call s.host c).1, up := s.up++(call s.host c).2 }
    else s
  | .sendTty data =>
    if s.host.phase = .idle then
      { s with host := (sendTty s.host data).1, up := s.up++(sendTty s.host data).2 }
    else s
  | .takeTty n =>
    if s.host.phase = .idle then
      { s with
        host := (takeTty s.host (s.down.take (min n 256))).1
        down := s.down.drop (min n 256) }
    else s
  | .poll n =>
    if s.host.phase = .idle then
      { s with
        host := (poll s.host (s.down.take (min n 256))).1
        down := s.down.drop (min n 256) }
    else s
  | .deviceRx n cap =>
    let r := linkBridgeRx e sh s.device (s.up.take n) true cap
    { s with
      device := r.bridge
      up := s.up.drop n
      down := s.down++sent r
      answers := s.answers++(rxDeliveries e sh s.device (s.up.take n) true cap).filterMap
        fun d => dispatched e d.1.1 d.2 }
  | .devicePoll nowMs cap =>
    let r := linkBridgePoll sh s.device nowMs true cap
    { s with device := r.bridge, down := s.down++sent r }

variable {l : Link} {f : Frame} {channel : UInt8} {pt : Bytes}

section

/-- The host's end of session `1`. -/
structure HostOn (key : Block) (keyId : UInt8) (hs : Session) : Prop where
  key_eq : hs.key = key
  keyId_eq : hs.keyId = keyId
  session_eq : hs.session = 1
  txDir_eq : hs.txDir = dirHost
  isOpen_eq : hs.isOpen = true

variable {key : Block} {keyId : UInt8} {hs : Session}

theorem offer_eq : offer s = wireOf (hello s.keyId 0 1) := by
  have hpayload : encodeHello s 0 1 = encodeFrame chHello.toNat 1
      ([tagVersion,1,linkVersion,tagKeyId,1,s.keyId,tagSession,2]++le16 0) 0 := rfl
  have henc : encodeFrame chHello.toNat 1
      ([tagVersion,1,linkVersion,tagKeyId,1,s.keyId,tagSession,2]++le16 0) 0 =
      linkFrameEncode (hello s.keyId 0 1) linkMaxFrame :=
    encodeFrame_eq chHello 0 1 (by simp [linkMaxPayload])
      (by simp [linkMaxFrame,linkMaxPayload,linkHeaderLen])
  rw [offer,hpayload]
  exact congrArg (Option.getD · []) henc

theorem acceptHello_hello (hid : hs.keyId = keyId) (hdir : hs.txDir = dirHost) : acceptHello
    (Host.ofSession hs) (seen (hello keyId 1 msgId)) 0 = (Host.ofSession (restarted hs),.ok ()) := by
  have haccept : linkSessionAcceptHello hs (hello keyId 1 msgId) 0 = (restarted hs,true) := by
    rw [linkSessionAcceptHello,helloSession_hello hs keyId 1 msgId hid]
    dsimp only
    rw [if_neg (by rw [hdir]; decide),if_neg (by decide)]
    rfl
  obtain ⟨hsession,hok⟩ := acceptHello_eq hs (hello keyId 1 msgId)
    (wireOf (hello keyId 1 msgId)) (wireOf (hello keyId 1 msgId)).length 0
  rw [haccept] at hsession hok
  exact Prod.ext hsession (hok.mpr rfl)

theorem greet_hello (hl : l.session = Host.ofSession hs) (hid : hs.keyId = keyId)
    (hdir : hs.txDir = dirHost) (msgId : UInt16) (fs : List HostFrame) :
    greet l (seen (hello keyId 1 msgId)::fs) =
      ({ l with session := Host.ofSession (restarted hs), ready := fs, phase := .idle },[]) := by
  have hchannel : ¬(seen (hello keyId 1 msgId)).channel ≠ chHello.toNat := not_not.mpr rfl
  rw [greet,if_neg hchannel,hl,acceptHello_hello hid hdir]

theorem openFrame_some (hf : Whole f) (h : linkSessionOpen hs f = (hs',some plain)) : openFrame
    (Host.ofSession hs) (seen f) = (Host.ofSession hs',.ok (Plain.ofFrame plain)) := by
  obtain ⟨hsession,hplain⟩ := openFrame_eq hs hf.fits (wireOf f) (wireOf f).length
  rw [h] at hsession hplain
  refine Prod.ext hsession ?_
  cases hr : (openFrame (Host.ofSession hs) (seen f)).2 with
  | error err =>
    rw [seen] at hr
    simp [hr,Except.toOption] at hplain
  | ok p =>
    rw [seen] at hr
    simpa [hr,Except.toOption] using hplain

theorem openFrame_none (hf : Whole f) (h : linkSessionOpen hs f = (hs',none)) : ∃ err, openFrame
    (Host.ofSession hs) (seen f) = (Host.ofSession hs',.error err) := by
  obtain ⟨hsession,hplain⟩ := openFrame_eq hs hf.fits (wireOf f) (wireOf f).length
  rw [h] at hsession hplain
  cases hr : (openFrame (Host.ofSession hs) (seen f)).2 with
  | error err => exact ⟨err,Prod.ext hsession hr⟩
  | ok p =>
    rw [seen] at hr
    simp [hr,Except.toOption] at hplain

def Fresh (hs : Session) (n : ℕ) : Prop :=
  ¬(UInt64.ofNat n+1 = 0 ∨ UInt64.ofNat n+1 ≤ hs.rxCounter)

section

variable (h : HostOn key keyId hs) {n : ℕ} (channel : UInt8) (msgId : UInt16) {pt : Bytes}
  (hp : pt.length ≤ linkMaxPayload-24)
include h hp

theorem HostOn.accepts (hfresh : Fresh hs n) :
    openFrame (Host.ofSession hs) (seen (sealFrame (sessionAt key keyId n) channel msgId pt)) =
      (Host.ofSession { hs with rxCounter := UInt64.ofNat n+1 },
        .ok ⟨channel.toNat,msgId.toNat,pt⟩) := by
  have hopen := (linkSessionOpen_sealFrame (sessionAt key keyId n) channel msgId (r:=hs)
    h.key_eq h.keyId_eq h.session_eq (by rw [h.txDir_eq]; rfl) h.isOpen_eq hp).trans (if_neg hfresh)
  rw [openFrame_some (whole_sealFrame channel msgId hp) hopen,Plain.ofFrame,
    Frame.ofBody_body (by omega)]
  rfl

theorem HostOn.refuses (hstale : ¬Fresh hs n) : ∃ err,
    openFrame (Host.ofSession hs) (seen (sealFrame (sessionAt key keyId n) channel msgId pt)) =
      (Host.ofSession hs,.error err) := by
  have hopen := (linkSessionOpen_sealFrame (sessionAt key keyId n) channel msgId (r:=hs)
    h.key_eq h.keyId_eq h.session_eq (by rw [h.txDir_eq]; rfl) h.isOpen_eq hp).trans
      (if_pos (not_not.mp hstale))
  exact openFrame_none (whole_sealFrame channel msgId hp) hopen

end

def hostAt (key : Block) (keyId : UInt8) (k : UInt64) : Session := ⟨key,keyId,1,k,0,dirHost,true⟩

def HostSealed (key : Block) (keyId : UInt8) (channel : UInt8) (f : Frame) : Prop :=
  ∃ k msgId pt, length pt ≤ linkMaxPayload-24 ∧
    f = sealFrame (hostAt key keyId k) channel msgId pt

theorem HostSealed.whole (h : HostSealed key keyId channel f) :
    Whole f := by
  obtain ⟨k,msgId,pt,hp,rfl⟩ := h
  exact whole_sealFrame channel msgId hp

theorem HostSealed.not_isHello (h : HostSealed key keyId channel f) :
    ¬isHello f := by
  obtain ⟨k,msgId,pt,-,rfl⟩ := h
  exact not_isHello_sealFrame

section

variable (h : HostOn key keyId hs)
include h

theorem HostOn.sealFrame_eq : sealFrame hs channel msgId pt = sealFrame (hostAt key keyId
    hs.txCounter) channel msgId pt := by
  obtain ⟨sKey,sKeyId,sSession,sTx,sRx,sDir,sOpen⟩ := hs
  obtain ⟨rfl,rfl,rfl,rfl,rfl⟩ := h
  rfl

theorem HostOn.counted (k : UInt64) :
    HostOn key keyId { hs with txCounter := k } :=
  ⟨h.key_eq,h.keyId_eq,h.session_eq,h.txDir_eq,h.isOpen_eq⟩

theorem HostOn.moved (k : UInt64) :
    HostOn key keyId { hs with rxCounter := k } :=
  ⟨h.key_eq,h.keyId_eq,h.session_eq,h.txDir_eq,h.isOpen_eq⟩

theorem HostOn.sendTty (hl : l.session = Host.ofSession hs)
    (data : Bytes) : ∃ k m fs, sendTty l data =
      ({ l with session := Host.ofSession { hs with txCounter := k }, msg := m },wires fs) ∧
      ∀ f ∈ fs, HostSealed key keyId chTty f := by
  induction hn : data.length using Nat.strong_induction_on generalizing data hs l with
  | _ n ih =>
    rw [HostLink.sendTty]
    by_cases hnil : data = []
    · rw [if_pos hnil]
      refine ⟨hs.txCounter,l.msg,[],?_,by simp⟩
      rw [←hl]
      rfl
    rw [if_neg hnil]
    have hpos := length_pos_iff.mpr hnil
    rcases sealNext_cases chTty (data.take 200) hl with ⟨k,hseal⟩ | ⟨-,hp,hc⟩
    · rw [hseal]
      exact ⟨k,l.msg+1,[],rfl,by simp⟩
    · rw [sealNext_open chTty (data.take 200) hl h.isOpen_eq hp hc]
      obtain ⟨k,m,fs,hrest,hfs⟩ := ih (data.drop 200).length (by rw [length_drop]; omega)
        (h.counted (hs.txCounter+1)) (l:={ l with
          session := Host.ofSession { hs with txCounter := hs.txCounter+1 }
          msg := l.msg+1 }) rfl (data.drop 200) rfl
      dsimp only
      rw [hrest,h.sealFrame_eq]
      exact ⟨k,m,_,rfl,forall_mem_cons.mpr ⟨⟨_,_,_,hp,rfl⟩,hfs⟩⟩

theorem HostOn.call_writes
    (hl : l.session = Host.ofSession hs)
    (henc : encodeCall c = some payload) (hp : payload.length ≤ linkMaxPayload-24)
    (hc : hs.txCounter.toNat+1 < 2^64) :
    HostLink.call l c = (answer { l with
        session := Host.ofSession { hs with txCounter := hs.txCounter+1 }
        msg := l.msg+1
        started := (hs.txCounter.toNat+1,payload)::l.started } (hs.txCounter.toNat+1) l.ready,
      wireOf (sealFrame (hostAt key keyId hs.txCounter) chCall (UInt16.ofNat (l.msg+1))
        payload)) := by
  have hnext := counter_succ hc
  rw [←hnext,←h.sealFrame_eq,HostLink.call,henc]
  simp only [sealNext_open chCall payload hl h.isOpen_eq hp hc]
  rfl

end

theorem call_cases (hl : l.session = Host.ofSession hs) :
    (∃ k m, call l c =
      ({ l with session := Host.ofSession { hs with txCounter := k }, msg := m },[])) ∨
    ∃ payload, encodeCall c = some payload ∧ payload.length ≤ linkMaxPayload-24 ∧
      hs.txCounter.toNat+1 < 2^64 := by
  rw [HostLink.call]
  cases encodeCall c with
  | none =>
    refine .inl ⟨hs.txCounter,l.msg,?_⟩
    rw [←hl]
  | some payload =>
    rcases sealNext_cases chCall payload hl with ⟨k,hseal⟩ | ⟨-,hp,hc⟩
    · exact .inl ⟨k,l.msg+1,by simp only [hseal]⟩
    · exact .inr ⟨payload,rfl,hp,hc⟩

theorem HostOn.answer_tty (h : HostOn key keyId hs) (counter : ℕ) (fs : List HostFrame)
    (hl : l.session = Host.ofSession hs) (hfresh : Fresh hs n) (hp : pt.length ≤ linkMaxPayload-24) :
    answer l counter (seen (LinkSession.sealFrame (sessionAt key keyId n) chTty msgId pt)::fs) =
      answer { l with session := Host.ofSession { hs with rxCounter := UInt64.ofNat n+1 } }
        counter fs := by
  have hother : ¬(chTty.toNat = chResult.toNat ∨ chTty.toNat = chError.toNat) := by decide
  rw [answer,hl,h.accepts chTty msgId hp hfresh]
  exact if_neg hother

theorem openFrame_clear (hf : f.flags &&& flagEncrypted = 0) : openFrame s (seen f) = (s,.error
    (.valueError "sealed frame")) := by
  have hflags : (seen f).flags &&& flagEncrypted.toNat = 0 := by
    change f.flags.toNat &&& flagEncrypted.toNat = 0
    rw [←UInt8.toNat_and,hf]
    rfl
  rw [openFrame,if_pos (.inr (.inl hflags))]

end

section

/-- Whole frames: ready, inbound and outbound ones. -/
structure Carries (s : System ω) (hs : Session) (ready inbound outbound : List Frame) : Prop where
  session_eq : s.host.session = Host.ofSession hs
  ready_eq : s.host.ready = ready.map seen
  down_eq : s.host.stream++s.down = wires inbound
  up_eq : s.device.stream.buf++s.up = wires outbound
  whole : ∀ f ∈ outbound, Whole f

/-- The handshake is over, and a waiting call has looked at all ready frames. -/
def Past (phase : Phase) (ready : List Frame) : Prop :=
  match phase with
  | .handshake _ => False
  | .call _ _ => ready = []
  | .idle => True
  | .failed => True

variable {e sh} {s : System ω}

/-- After `f`, before `gs`: a frame that fails ends the call and drops its output. -/
def Delivered (J : Core ω → List Frame → List Frame → Prop) (f : Frame) (gs : List Frame)
    (r : (Core ω × Tx) × Bool) : Prop :=
  r.2 = true ∧ (∃ out, r.1.2.out = wires out ∧ J r.1.1 out gs) ∨ r.2 = false ∧ J r.1.1 [] (f::gs)

/-- What every successful frame keeps holds afterwards; one that fails stays in the pipe while all
output is discarded. -/
theorem rx_frames {J : Core ω → List Frame → List Frame → Prop} {fs : List Frame} (cap : ℕ)
    (hr : linkBridgeRx e sh s.device (s.up.take n) true cap = r) (hfs : ∀ f ∈ fs, Whole f)
    (hup : s.device.stream.buf++s.up = wires fs)
    (hfit : s.device.stream.buf.length+(s.up.take n).length ≤ linkMaxFrame)
    (hstep : ∀ c tx out f gs,
      ((c,tx),wireOf f) ∈ rxDeliveries e sh s.device (s.up.take n) true cap → Whole f →
      tx.out = wires out → J c out (f::gs) → Delivered J f gs (onWire e sh (c,tx) (wireOf f)))
    (hJ : J s.device.core [] fs) : ∃ gs out, (∀ f ∈ gs, Whole f) ∧
      r.bridge.stream.buf++s.up.drop n = wires gs ∧ sent r = wires out ∧
      J r.bridge.core out gs := by
  have hxs : pushBytes s.device.stream.buf (s.up.take n)++s.up.drop n = wires fs := by
    rw [pushBytes_eq_append hfit,append_assoc,take_append_drop,hup]
  have hds : rxDeliveries e sh s.device (s.up.take n) true cap = deliveries (onWire e sh)
      (pushBytes s.device.stream.buf (s.up.take n)) (s.device.core,⟨[],cap⟩) :=
    if_neg (by simp)
  have hstart : ∃ out, (if true then (⟨[],cap⟩ : Tx).out = wires out else out = []) ∧
      J s.device.core out fs := ⟨[],rfl,hJ⟩
  obtain ⟨gs,hgs,hrest,out,hout,hdone⟩ := drain_wires
    (J:=fun (st : Core ω × Tx) gs (ok : Bool) =>
      ∃ out, (if ok then st.2.out = wires out else out = []) ∧ J st.1 out gs) hfs hxs (by
      rintro ⟨c,tx⟩ f gs hd hf ⟨out,hout,hJ⟩
      rw [←hds] at hd
      rcases hstep c tx out f gs hd hf hout hJ with ⟨hok,out',hout',hJ'⟩ | ⟨hok,hJ'⟩
      · rw [hok]
        exact ⟨out',hout',hJ'⟩
      · rw [hok]
        exact ⟨[],rfl,hJ'⟩) hstart
  rw [←hr,linkBridgeRx,if_neg (by simp)]
  refine ⟨gs,out,hgs,hrest,?_,hdone⟩
  dsimp only [sent,linkStreamPush]
  by_cases hok : (drain (onWire e sh) (pushBytes s.device.stream.buf (s.up.take n))
      (s.device.core,⟨[],cap⟩)).2.2 = true
  · rw [if_pos hok] at hout
    rw [if_pos hok]
    exact hout
  · rw [if_neg hok] at hout
    rw [if_neg hok,hout]
    rfl

end

section

variable {e sh} {s : System ω} {f : Frame} {rest : Bytes}

theorem rx_frame (hf : Whole f) (hbuf : b.stream = Stream.empty) (hwire : onWire e sh
    (b.core,⟨[],cap⟩) (wireOf f) = ((c,tx),true)) : rxDeliveries e sh b (wireOf f) true cap =
    [((b.core,⟨[],cap⟩),wireOf f)] ∧ linkBridgeRx e sh b (wireOf f) true cap =
    ⟨⟨Stream.empty,c⟩,tx.out,some tx.out.length⟩ := by
  have hlen : (wireOf f).length ≤ linkMaxFrame := by
    have hl := hf.fits
    rw [hf.length]
    simp only [linkMaxFrame,linkHeaderLen]
    omega
  have hpush : pushBytes b.stream.buf (wireOf f) = wireOf f := by
    rw [hbuf]
    exact pushBytes_eq_append (by simpa [Stream.empty] using hlen)
  obtain ⟨hdrain,hds⟩ := drain_wireOf hf hwire
  constructor
  · rw [rxDeliveries,if_neg (by simp),hpush,hds]
  · simp only [linkBridgeRx,linkStreamPush,hpush,hdrain]
    rfl

theorem dispatched_hello (keyId : UInt8) (sessionId msgId : UInt16) : dispatched e c (wireOf
    (hello keyId sessionId msgId)) = none := by
  rw [dispatched,(hello_whole keyId sessionId msgId).decode]
  exact if_pos (hello_isHello keyId sessionId msgId)

theorem step_deviceRx_frame (hf : Whole f) (hn : (wireOf f).length = n)
    (hbuf : s.device.stream = Stream.empty) (hup : s.up = wireOf f++rest)
    (hwire : onWire e sh (s.device.core,⟨[],cap⟩) (wireOf f) = ((c,tx),true)) :
    step e sh s (.deviceRx n cap) =
      { s with
        device := ⟨Stream.empty,c⟩
        up := rest
        down := s.down++tx.out
        answers := s.answers++(dispatched e s.device.core (wireOf f)).toList } := by
  obtain ⟨hds,hrx⟩ := rx_frame hf hbuf hwire
  have htake : s.up.take n = wireOf f := by rw [hup,←hn,take_left]
  have hdrop : s.up.drop n = rest := by rw [hup,←hn,drop_left]
  rw [step,htake,hdrop,hrx,hds]
  simp only [sent,filterMap_cons,filterMap_nil]
  cases dispatched e s.device.core (wireOf f) <;> rfl

theorem nextFrame_frame (hf : Whole f) : nextFrame [] reads (wireOf f) = (.frames (seen f)
    [],[]) := by
  have hall := extractFrames_all (forall_mem_singleton.mpr hf)
  have hwires : wires [f] = wireOf f := by simp
  have hne : wireOf f ≠ [] := by
    have hl := hf.length
    exact ne_nil_of_length_pos (by omega)
  rw [hwires] at hall
  rw [nextFrame,if_neg hne,nil_append,hall]
  rfl

variable {n : ℕ} (hn : (wireOf f).length = n) (hmax : n ≤ 64) (hstream : s.host.stream = [])
  (hdown : s.down = wireOf f++rest)

section

include hn hmax hstream hdown

theorem step_read_greet (hf : Whole f) (hphase : s.host.phase = .handshake reads) :
    step e sh s (.read n) =
      { s with
        host := (greet s.host [seen f]).1
        up := s.up++(greet s.host [seen f]).2
        down := rest } := by
  have hsame : { s.host with stream := [] } = s.host := by rw [←hstream]
  rw [step,hostRead,hphase,min_eq_left hmax,hdown,←hn,take_left,drop_left]
  simp only [handshakeRead,hstream,nextFrame_frame hf,hsame]

theorem step_read_answer (hf : Whole f) {counter reads : ℕ}
    (hphase : s.host.phase = .call counter reads) :
    step e sh s (.read n) = { s with host := answer s.host counter [seen f], down := rest } := by
  have hsame : { s.host with stream := [] } = s.host := by rw [←hstream]
  rw [step,hostRead,hphase,min_eq_left hmax,hdown,←hn,take_left,drop_left]
  simp only [callRead,hstream,nextFrame_frame hf,hsame]

end

end

variable {msgId : UInt16}

section

variable {e sh} {s : System ω} {rest : Bytes} {key : Block} {keyId : UInt8} {hs : Session} {n : ℕ}

theorem step_read_hello (hs : Session) (hphase : s.host.phase = .handshake reads)
    (hstream : s.host.stream = []) (hsession : s.host.session = Host.ofSession hs)
    (hid : hs.keyId = keyId) (hdir : hs.txDir = dirHost)
    (hdown : s.down = wireOf (hello keyId 1 msgId)++rest) :
    step e sh s (.read 21) =
      { s with
        host := { s.host with
          session := Host.ofSession (restarted hs), ready := [], phase := .idle }
        down := rest } := by
  rw [step_read_greet (hello_length keyId 1 msgId) (by decide) hstream hdown
    (hello_whole keyId 1 msgId) hphase,greet_hello hsession hid hdir,append_nil]

variable (hon : HostOn key keyId hs) (hsession : s.host.session = Host.ofSession hs)
include hon hsession

theorem step_call_idle (hphase : s.host.phase = .idle) (hready : s.host.ready = [])
    (henc : encodeCall c = some payload)
    (hp : payload.length ≤ linkMaxPayload-24) (hc : hs.txCounter.toNat+1 < 2^64) :
    step e sh s (.call c) =
      { s with
        host := { s.host with
          session := Host.ofSession { hs with txCounter := hs.txCounter+1 }
          msg := s.host.msg+1
          started := (hs.txCounter.toNat+1,payload)::s.host.started
          ready := []
          phase := .call (hs.txCounter.toNat+1) 0 }
        up := s.up++wireOf (sealFrame (hostAt key keyId hs.txCounter) chCall
          (UInt16.ofNat (s.host.msg+1)) payload) } := by
  rw [step,if_pos hphase,hon.call_writes hsession henc hp hc,hready]
  rfl

variable {counter reads : ℕ} (hphase : s.host.phase = .call counter reads)
  (hstream : s.host.stream = []) (hfresh : Fresh hs n)
include hphase hstream hfresh

theorem step_read_tty
    (hdown : s.down = wireOf (sealFrame (sessionAt key keyId n) chTty msgId pt)++rest)
    (hm : 35+pt.length = m) (hmax : m ≤ 64) :
    step e sh s (.read m) =
      { s with
        host := { s.host with
          session := Host.ofSession { hs with rxCounter := UInt64.ofNat n+1 }
          ready := []
          phase := .call counter 0 }
        down := rest } := by
  have hfit : pt.length ≤ linkMaxPayload-24 := by unfold linkMaxPayload; omega
  rw [step_read_answer ((sealWire_length _ chTty msgId hfit).trans hm) hmax hstream hdown
    (whole_sealFrame chTty msgId hfit) hphase,
    hon.answer_tty counter [] hsession hfresh hfit]
  rfl

theorem step_read_reply (hchannel : channel = chResult ∨ channel = chError)
    (hdown : s.down = wireOf (sealFrame (sessionAt key keyId n) channel msgId pt)++rest)
    (hm : 35+pt.length = m) (hmax : m ≤ 64) :
    step e sh s (.read m) =
      { s with
        host := { s.host with
          session := Host.ofSession { hs with rxCounter := UInt64.ofNat n+1 }
          ready := []
          phase := .idle
          returned := (counter,describe ⟨channel.toNat,msgId.toNat,pt⟩)::s.host.returned }
        down := rest } := by
  have hfit : pt.length ≤ linkMaxPayload-24 := by unfold linkMaxPayload; omega
  rw [step_read_answer ((sealWire_length _ channel msgId hfit).trans hm) hmax hstream hdown
    (whole_sealFrame channel msgId hfit) hphase,answer,hsession,
    hon.accepts channel msgId hfit hfresh]
  dsimp only
  rw [if_pos (hchannel.imp (congrArg UInt8.toNat) (congrArg UInt8.toNat))]

end

section

variable (key : Block) (keyId : UInt8) (world : ω)

theorem holds_init : Holds key keyId (linkBridgeInit (some key) keyId world).core.session :=
  ⟨rfl,rfl,rfl⟩

theorem start_up : (start key keyId world).up = wireOf (hello keyId 0 1)++[] := by
  rw [append_nil]
  exact offer_eq

def answered (c : Core ω) : System ω :=
  { start key keyId world with
    device := ⟨Stream.empty,c⟩
    up := []
    down := wireOf (hello keyId 1 1)++(wireOf (prompt key keyId 2)++[]) }

theorem step_first_hello (e : Env ω) (sh : Shell (Device ω)) :
    ∃ c, step e sh (start key keyId world) (.deviceRx 21 1024) = answered key keyId world c ∧
      OnSession key keyId c.session 1 ∧ c.session.rxCounter = 0 ∧
      c.device = (start key keyId world).device.core.device ∧ c.msgId = 2 := by
  obtain ⟨c,hw,hon,hrx,-,hdevice,hmsg⟩ := onWire_hello_prompt e sh (holds_init key keyId world) rfl
  refine ⟨c,?_,hon,hrx,hdevice,hmsg⟩
  rw [step_deviceRx_frame (s:=start key keyId world) (hello_whole keyId 0 1)
    (hello_length keyId 0 1) rfl (start_up key keyId world) hw,dispatched_hello]
  rfl

theorem first_hello_fits (e : Env ω) (sh : Shell (Device ω)) :
    (start key keyId world).device.stream.buf.length+
        ((start key keyId world).up.take 21).length ≤ linkMaxFrame ∧
      ∀ d ∈ rxDeliveries e sh (start key keyId world).device ((start key keyId world).up.take 21)
        true 1024, d.1.1.session.txCounter = 0 := by
  have htake : (start key keyId world).up.take 21 = wireOf (hello keyId 0 1) := by
    rw [start_up,←hello_length keyId 0 1,take_left]
  obtain ⟨c,hw,-⟩ := onWire_hello_prompt e sh (holds_init key keyId world) rfl
  have hds := (rx_frame (b:=(start key keyId world).device) (hello_whole keyId 0 1) rfl hw).1
  rw [htake,hello_length,hds]
  exact ⟨show 0+21 ≤ linkMaxFrame by decide,forall_mem_singleton.mpr rfl⟩

theorem encodeCall_keyUp : encodeCall (.key (text "up") true) = some keyUpCall := by decide +kernel

end

end TinyDeviceOs.LinkSystem
