import TinyDeviceOs.LinkSession
import TinyDeviceOs.LinkStream
import TinyDeviceOs.TtyService

/-! The device side of the link, `apps/link_bridge.c`. The rest of the device is an environment on
a state `ω`. Two histories are kept: the handlers that were invoked and the nonces that were used.
-/
namespace TinyDeviceOs.LinkBridge

open LittleEndian LinkFrame LinkCrypto LinkSession LinkStream LinkDispatch TtyService

/-- Notifications, the app table, the event bus and the keys. -/
structure Env (ω : Type) where
  notifyPost : Bytes → Option Bytes → Bool → UInt32 → ω → ω × ℤ
  appFind : Bytes → ω → Bool
  eventPublish : Bytes → Bytes → ω → ω × ℤ
  handleKey : ℕ → Bool → ω → ω

def linkMsgApp : ℕ := 24
def linkMsgText : ℕ := 96
def eventTopicMax : ℕ := 16
def eventMaxData : ℕ := 32

structure Device (ω : Type) where
  msgs : Vector (Option (Bytes × Bytes)) 4
  world : ω
  calls : List HandlerCall

variable {ω : Type}

def Device.note (d : Device ω) (c : HandlerCall) : Device ω := { d with calls := c::d.calls }

variable (e : Env ω)

def onNotify (title : Bytes) (body : Option Bytes) (extent : UInt8) (duration : UInt32)
    (d : Device ω) : Device ω × ℤ :=
  let d := d.note (.notify title body extent duration)
  let (world,rc) := e.notifyPost title body (extent = extentFull) duration d.world
  ({ d with world := world },rc)

def freeSlot (d : Device ω) : Option (Fin 4) := (List.finRange 4).find? fun i => d.msgs[i].isNone

def onMessage (app name : Bytes) (d : Device ω) : Device ω × ℤ :=
  let d := d.note (.message app name)
  if e.appFind app d.world = false then (d,errUnknownApp.toNat)
  else match freeSlot d with
    | some i => ({ d with
        msgs := d.msgs.set i (some (app.take (linkMsgApp-1),name.take (linkMsgText-1))) },0)
    | none => (d,errBusy.toNat)

def onEvent (app name payload : Bytes) (d : Device ω) : Device ω × ℤ :=
  let d := d.note (.event app name payload)
  let topic := text "app."++app++text "."++name
  if e.appFind app d.world = false then (d,errUnknownApp.toNat)
  else if eventTopicMax ≤ topic.length then (d,errBadArgs.toNat)
  else
    let (world,rc) := e.eventPublish topic (payload.take eventMaxData) d.world
    ({ d with world := world },if rc < 0 then errBadArgs.toNat else 0)

/-- `key_from_name`; `none` is `SIM_KEY_UNKNOWN`. -/
def keyFromName (name : Bytes) : Option ℕ :=
  if name = text "up" then some keyUp
  else if name = text "down" then some keyDown
  else if name = text "left" then some keyLeft
  else if name = text "right" then some keyRight
  else if name = text "enter" ∨ name = text "select" then some keyEnter
  else if name = text "escape" then some keyEscape
  else none

def onKey (name : Bytes) (pressed : Bool) (d : Device ω) : Device ω × ℤ :=
  let d := d.note (.key name pressed)
  match keyFromName name with
  | none => (d,-1)
  | some code => ({ d with world := e.handleKey code pressed d.world },0)

def handlers : Handlers (Device ω) where
  notify := some (onNotify e)
  message := some (onMessage e)
  event := some (onEvent e)
  key := some (onKey e)

/-- What `on_wire` works on, and the nonces of all seals. -/
structure Core (ω : Type) where
  session : Session
  msgId : UInt16
  tty : Tty
  device : Device ω
  nonces : List Nonce

/-- `link_tx_t`: the bytes written and the capacity. -/
structure Tx where
  out : Bytes
  cap : ℕ

def txAppend (tx : Tx) (data : Option Bytes) : Tx × Bool :=
  match data with
  | none => (tx,false)
  | some bytes =>
    if tx.cap < tx.out.length+bytes.length then (tx,false)
    else ({ tx with out := tx.out++bytes },true)

def errorFrame (msgId code : UInt16) (msg : Bytes) : Option Frame := do
  let buf ← linkTlvPutU16 [] linkMaxPayload tagCode code
  let buf ← linkTlvPutStr buf linkMaxPayload tagErrmsg msg
  return Frame.ofBody linkVersion flagError chError msgId buf

/-- The session after a Hello, whether it was accepted, and the answer. -/
def helloReply (s : Session) (msgId : UInt16) (f : Frame) : Session × Bool × Option Bytes :=
  match linkSessionAcceptHello s f 1 with
  | (s,false) => (s,false,(errorFrame msgId errBadArgs (text "key")).bind
      (linkFrameEncode · linkMaxFrame))
  | (s,true) => (s,true,linkSessionEncodeHello s s.session msgId linkMaxFrame)

/-- Under the next message id, with the nonce recorded on success. -/
def sealNext (c : Core ω) (channel : UInt8) (pt : Bytes) : Core ω × Option Bytes :=
  let msgId := c.msgId+1
  let (session,wire) := linkSessionSeal c.session channel msgId pt linkMaxFrame
  ({ c with
      session := session
      msgId := msgId
      nonces := if wire.isSome then nonceFor session session.txDir session.txCounter::c.nonces
        else c.nonces },wire)

/-- Pieces of 200 bytes, while a whole frame has room. -/
def sealTty (c : Core ω) (tx : Tx) : Core ω × Tx × Bool :=
  if tx.out.length < tx.cap ∧ linkMaxFrame ≤ tx.cap-tx.out.length then
    if c.tty.out = [] then (c,tx,true)
    else
      let r := sealNext { c with tty := (ttyServiceRead c.tty 200).2 } chTty
        (ttyServiceRead c.tty 200).1
      let a := txAppend tx r.2
      if a.2 then sealTty r.1 a.1 else (r.1,a.1,false)
  else (c,tx,true)
termination_by c.tty.out.length
decreasing_by
  have hp := List.length_pos_iff.mpr (by assumption : c.tty.out ≠ [])
  simp only [sealNext,ttyServiceRead,List.length_drop]
  omega

def isHello (f : Frame) : Prop := f.channel = chHello ∧ f.flags &&& flagEncrypted = 0
  deriving Decidable

theorem not_isHello_sealFrame {s : Session} {channel : UInt8} {msgId : UInt16} {pt : Bytes} :
    ¬isHello (sealFrame s channel msgId pt) := by
  rintro ⟨-,hf⟩
  exact absurd hf (by change ¬(flagEncrypted &&& flagEncrypted = 0); decide)

/-- A call: dispatch it, seal the reply and append it. -/
def onCall (c : Core ω) (tx : Tx) (payload : Bytes) : Core ω × Tx × Bool :=
  match linkDispatchCall (handlers e) payload linkMaxPayload c.device with
  | (device,none) => ({ c with device := device },tx,true)
  | (device,some (channel,reply)) =>
    let r := sealNext { c with device := device } channel reply
    (r.1,txAppend tx r.2)

variable (sh : Shell (Device ω))

def onPlain (c : Core ω) (tx : Tx) (plain : Frame) :
    Core ω × Tx × Bool :=
  if plain.channel = chTty then
    let (tty,device) := ttyServiceInput sh c.tty c.device plain.body
    sealTty { c with tty := tty, device := device } tx
  else if plain.channel ≠ chCall then (c,tx,true)
  else onCall e c tx plain.body

def onHello (c : Core ω) (tx : Tx) (f : Frame) : Core ω × Tx × Bool :=
  let (session,accepted,answer) := helloReply c.session (c.msgId+1) f
  let c := { c with session := session, msgId := c.msgId+1 }
  let (tx,ok) := txAppend tx answer
  if accepted ∧ ok then sealTty { c with tty := ttyServiceOpen c.tty } tx else (c,tx,ok)

/-- The flag is `true` for the return value `0`. -/
def onWire (st : Core ω × Tx) (raw : Bytes) :
    (Core ω × Tx) × Bool :=
  let (c,tx) := st
  match linkFrameDecode raw with
  | none => ((c,tx),true)
  | some (_,f) =>
    let out :=
      if isHello f then onHello c tx f
      else if c.session.isOpen = false then (c,tx,true)
      else match linkSessionOpen c.session f with
        | (session,none) => ({ c with session := session },tx,true)
        | (session,some plain) => onPlain e sh { c with session := session } tx plain
    ((out.1,out.2.1),out.2.2)

structure Bridge (ω : Type) where
  stream : Stream
  core : Core ω

def linkBridgeInit (key : Option Block) (keyId : UInt8) (world : ω) : Bridge ω where
  stream := Stream.empty
  core :=
    { session := linkSessionInit key keyId dirDevice
      msgId := 0
      tty := ttyServiceReset
      device := ⟨Vector.replicate 4 none,world,[]⟩
      nonces := [] }

/-- The return value is `none` for `-1`. -/
structure Result (ω : Type) where
  bridge : Bridge ω
  written : Bytes
  ret : Option ℕ

/-- The flag: the output pointer is not null. -/
def linkBridgeRx (b : Bridge ω) (data : Bytes) (hasTx : Bool)
    (cap : ℕ) : Result ω :=
  if hasTx = false ∧ 0 < cap then ⟨b,[],none⟩
  else
    let (stream,(core,tx),ok) := linkStreamPush (onWire e sh) b.stream data (b.core,⟨[],cap⟩)
    ⟨⟨stream,core⟩,tx.out,if ok then some tx.out.length else none⟩

def linkBridgePoll (b : Bridge ω) (nowMs : UInt32) (hasTx : Bool)
    (cap : ℕ) : Result ω :=
  if b.core.session.isOpen = false ∨ hasTx = false then ⟨b,[],some 0⟩
  else
    let c := { b.core with tty := ttyServicePoll sh b.core.tty b.core.device nowMs }
    let (core,tx,ok) := sealTty c ⟨[],cap⟩
    ⟨⟨b.stream,core⟩,tx.out,if ok then some tx.out.length else none⟩

theorem helloReply_some (s : Session) (msgId : UInt16) (f : Frame) :
    ∃ out, (helloReply s msgId f).2.2 = some out ∧ 0 < out.length ∧ out.length ≤ 21 := by
  rw [helloReply]
  split
  · have hl : (Frame.ofBody linkVersion flagError chError msgId
        ([tagCode,2]++le16 errBadArgs++[tagErrmsg,3,0x6b,0x65,0x79])).length.toNat = 9 :=
      Frame.ofBody_length (by simp [linkMaxPayload])
    have he := linkFrameEncode_eq linkMaxFrame (f:=Frame.ofBody linkVersion flagError chError
      msgId ([tagCode,2]++le16 errBadArgs++[tagErrmsg,3,0x6b,0x65,0x79]))
      (by rw [hl]; decide) (by rw [hl]; decide)
    have hn := (linkFrameEncode_some he).2.1
    rw [hl] at hn
    exact ⟨_,he,by rw [hn]; decide,by rw [hn]; decide⟩
  · rename_i s' _
    obtain ⟨out,ho,hl⟩ := linkSessionEncodeHello_some s' s'.session msgId
    exact ⟨out,ho,by omega,by omega⟩

section

variable (c : Core ω) (channel : UInt8) (pt : Bytes)

theorem linkSessionSeal_frame (s : Session) (msgId : UInt16) (cap : ℕ) :
    ∃ k, (linkSessionSeal s channel msgId pt cap).1 = { s with txCounter := k } ∧
      (k = s.txCounter ∧ (linkSessionSeal s channel msgId pt cap).2 = none ∨ k = s.txCounter+1) := by
  rw [linkSessionSeal]
  split_ifs
  · exact ⟨_,rfl,.inl ⟨rfl,rfl⟩⟩
  · exact ⟨_,rfl,.inr rfl⟩

variable {c} {pt}

theorem sealNext_open (ho : c.session.isOpen = true) (h : pt.length ≤ linkMaxPayload-24) :
    sealNext c channel pt =
      ({ c with
          session := { c.session with txCounter := c.session.txCounter+1 }
          msgId := c.msgId+1
          nonces := nonceFor { c.session with txCounter := c.session.txCounter+1 }
            c.session.txDir (c.session.txCounter+1)::c.nonces },
        some (sealWire c.session channel (c.msgId+1) pt)) := by
  simp [sealNext,linkSessionSeal_open channel (c.msgId+1) ho h]

end

theorem txAppend_some (h : tx.out.length+bytes.length ≤ tx.cap) :
    txAppend tx (some bytes) = ({ tx with out := tx.out++bytes },true) := by
  rw [txAppend,if_neg (by omega)]

theorem ttyServiceRead_length (t : Tty) : (ttyServiceRead t 200).1.length ≤ linkMaxPayload-24 := by
  simp only [ttyServiceRead,List.length_take,linkMaxPayload]
  omega

section

variable (c : Core ω)

def sealRound : Core ω :=
  (sealNext { c with tty := (ttyServiceRead c.tty 200).2 } chTty (ttyServiceRead c.tty 200).1).1

def roundWire : Bytes := sealWire c.session chTty (c.msgId+1) (ttyServiceRead c.tty 200).1

@[simp] theorem sealRound_out : (sealRound c).tty.out = c.tty.out.drop 200 := rfl

theorem roundWire_length : (roundWire c).length = 35+min 200 c.tty.out.length := by
  rw [roundWire,sealWire_length _ _ _ (ttyServiceRead_length c.tty)]
  simp [ttyServiceRead]

variable {c}

section

variable (ho : c.session.isOpen = true)
include ho

theorem sealRound_session :
    (sealRound c).session = { c.session with txCounter := c.session.txCounter+1 } := by
  rw [sealRound,sealNext_open (c:={ c with tty := (ttyServiceRead c.tty 200).2 }) chTty ho
    (ttyServiceRead_length c.tty)]

theorem sealRound_nonces : (sealRound c).nonces = nonceFor (sealRound c).session c.session.txDir
    (c.session.txCounter+1)::c.nonces := by
  rw [sealRound_session ho,sealRound,sealNext_open
    (c:={ c with tty := (ttyServiceRead c.tty 200).2 }) chTty ho (ttyServiceRead_length c.tty)]

theorem sealTty_step
    (hroom : linkMaxFrame ≤ tx.cap-tx.out.length) (hout : c.tty.out ≠ []) :
    sealTty c tx = sealTty (sealRound c) { tx with out := tx.out++roundWire c } := by
  have hw := roundWire_length c
  have hs := sealNext_open (c:={ c with tty := (ttyServiceRead c.tty 200).2 }) chTty ho
    (ttyServiceRead_length c.tty)
  have hfit : tx.out.length+(roundWire c).length ≤ tx.cap := by
    simp only [linkMaxFrame,linkMaxPayload,linkHeaderLen] at hroom
    omega
  rw [sealTty,if_pos ⟨by unfold linkMaxFrame linkHeaderLen at hroom; omega,hroom⟩,if_neg hout]
  simp only [sealRound,hs]
  rw [← roundWire,txAppend_some hfit]
  simp

end

end

theorem sealTty_stop {c : Core ω} {tx : Tx} (h : tx.cap < tx.out.length+linkMaxFrame ∨ c.tty.out = []) :
    sealTty c tx = (c,tx,true) := by
  rw [sealTty]
  split_ifs with hroom hout
  · rfl
  · have hfull := h.resolve_right hout
    have hm : 0 < linkMaxFrame := by decide
    omega
  · rfl

/-- Along the rounds of `seal_tty` on an open session. -/
theorem sealTty_induction {motive : Core ω → Tx → Prop}
    (stop : ∀ c tx, tx.cap < tx.out.length+linkMaxFrame ∨ c.tty.out = [] → motive c tx)
    (step : ∀ c tx, c.session.isOpen = true → linkMaxFrame ≤ tx.cap-tx.out.length →
      c.tty.out ≠ [] → motive (sealRound c) { tx with out := tx.out++roundWire c } → motive c tx)
    (c : Core ω) (tx : Tx) (ho : c.session.isOpen = true) : motive c tx := by
  induction hn : c.tty.out.length using Nat.strong_induction_on generalizing c tx with
  | _ n ih =>
    by_cases hstop : tx.cap < tx.out.length+linkMaxFrame ∨ c.tty.out = []
    · exact stop c tx hstop
    push Not at hstop
    have hp := List.length_pos_iff.mpr hstop.2
    refine step c tx ho (by omega) hstop.2 (ih _ ?_ _ _ ?_ rfl)
    · rw [← hn,sealRound_out,List.length_drop]
      omega
    · rw [sealRound_session ho]
      exact ho

end TinyDeviceOs.LinkBridge
