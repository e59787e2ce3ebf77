import TinyDeviceOs.BridgeNonces
import TinyDeviceOs.LinkChannel

/-! A host and a device with one key, and a network that delivers any frame ever sent, to either
side and any number of times. Frames are identified by their position in all that was sent. -/
namespace TinyDeviceOs.LinkReplay

open LittleEndian LinkFrame LinkCrypto LinkSession LinkBridge BridgeNonces LinkChannel
open List hiding Vector

inductive Party
  | host | device
  deriving DecidableEq

structure Sent where
  sender : Party
  isSealed : Bool
  wire : Bytes
  deriving DecidableEq

/-- With all that was sent, and the positions that the device accepted. -/
structure Net where
  (host device : Session)
  msgId : UInt16
  sent : List Sent
  accepted : List ℕ
  deriving DecidableEq

def Net.init (key : Block) (keyId : UInt8) : Net :=
  ⟨linkSessionInit (some key) keyId dirHost,linkSessionInit (some key) keyId dirDevice,0,[],[]⟩

section

variable (n : Net)

def Net.send (sender : Party) (isSealed : Bool) (wire : Option Bytes) : Net :=
  { n with sent := n.sent++(wire.map fun w => ⟨sender,isSealed,w⟩).toList }

inductive Action
  | hostHello (sessionId msgId : UInt16)
  | hostSeal (channel : UInt8) (msgId : UInt16) (pt : Bytes)
  | deviceSeal (channel : UInt8) (pt : Bytes)
  | toDevice (i : ℕ)
  | toHost (i : ℕ)

def Net.frameAt (i : ℕ) : Option Frame :=
  (n.sent.getD i ⟨.host,false,[]⟩ |>.wire |> linkFrameDecode).map Prod.snd

/-- Hello is answered, everything else is opened. -/
def Net.deviceGets (i : ℕ) (f : Frame) : Net :=
  if isHello f then
    let (device,_,answer) := helloReply n.device (n.msgId+1) f
    { n with device := device, msgId := n.msgId+1 }.send .device false answer
  else match linkSessionOpen n.device f with
    | (device,none) => { n with device := device }
    | (device,some _) => { n with device := device, accepted := i::n.accepted }

/-- A Hello is adopted, the rest is opened. -/
def Net.hostGets (f : Frame) : Net :=
  if isHello f then { n with host := (linkSessionAcceptHello n.host f 0).1 }
  else { n with host := (linkSessionOpen n.host f).1 }

def step : Action → Net
  | .hostHello sessionId msgId =>
    n.send .host false (linkSessionEncodeHello n.host sessionId msgId linkMaxFrame)
  | .hostSeal channel msgId pt =>
    let (host,wire) := linkSessionSeal n.host channel msgId pt linkMaxFrame
    { n with host := host }.send .host true wire
  | .deviceSeal channel pt =>
    let (device,wire) := linkSessionSeal n.device channel (n.msgId+1) pt linkMaxFrame
    { n with device := device, msgId := n.msgId+1 }.send .device true wire
  | .toDevice i =>
    match n.frameAt i with
    | none => n
    | some f => n.deviceGets i f
  | .toHost i =>
    match n.frameAt i with
    | none => n
    | some f => n.hostGets f

/-- A Hello is accepted only before any sealed frame. -/
def SafeStep : Action → Prop
  | .toDevice i => ∀ f, n.frameAt i = some f → isHello f →
      (linkSessionAcceptHello n.device f 1).2 = true → n.device.rxCounter = 0
  | _ => True

end

def SafeRun : Net → List Action → Prop
  | _, [] => True
  | n, a::as => SafeStep n a ∧ SafeRun (step n a) as

variable {n : Net}

theorem SafeRun.append (ha : SafeRun n as) (hb : SafeRun (as.foldl step n) bs) : SafeRun n
    (as++bs) := by
  induction as generalizing n with
  | nil => exact hb
  | cons a as ih => exact ⟨ha.1,ih ha.2 hb⟩

/-- Accepted frames are not above the window, and none came twice. -/
structure ReplayInv (n : Net) : Prop where
  window : ∀ i ∈ n.accepted, i < n.sent.length ∧ ∃ f, n.frameAt i = some f ∧ frameCounter f ≠ 0 ∧
    frameCounter f ≤ n.device.rxCounter
  nodup : n.accepted.Nodup

theorem Net.frameAt_send (h : i < n.sent.length) : (n.send p b w).frameAt i = n.frameAt i := by
  rw [frameAt,frameAt,send,getD_append _ _ _ _ h]

theorem ReplayInv.send (h : ReplayInv n) (p : Party) (b : Bool) (w : Option Bytes) :
    ReplayInv (n.send p b w) := by
  refine ⟨fun i hi => ?_,h.nodup⟩
  obtain ⟨hl,f,hf,h0,hle⟩ := h.window i hi
  refine ⟨?_,f,by rw [Net.frameAt_send hl,hf],h0,hle⟩
  simp only [Net.send,length_append]
  omega

theorem ReplayInv.congr (h : ReplayInv n) (hs : m.sent = n.sent) (ha : m.accepted = n.accepted)
    (hr : m.device.rxCounter = n.device.rxCounter) : ReplayInv m := by
  refine ⟨fun i hi => ?_,ha ▸ h.nodup⟩
  obtain ⟨hl,f,hf,h0,hle⟩ := h.window i (ha ▸ hi)
  exact ⟨hs ▸ hl,f,by rw [← hf,Net.frameAt,Net.frameAt,hs],h0,hr ▸ hle⟩

theorem ReplayInv.accepted_nil (h : ReplayInv n) (h0 : n.device.rxCounter = 0) :
    n.accepted = [] := by
  refine eq_nil_iff_forall_not_mem.mpr fun i hi => ?_
  obtain ⟨-,f,-,hne,hle⟩ := h.window i hi
  rw [h0] at hle
  exact hne (UInt64.le_antisymm hle UInt64.zero_le)

theorem Net.lt_of_frameAt (h : n.frameAt i = some f) : i < n.sent.length := by
  by_contra hge
  rw [frameAt,getD_eq_default _ _ (by omega)] at h
  simp [linkFrameDecode] at h

theorem ReplayInv.deviceGets (h : ReplayInv n) (hf : n.frameAt i = some f) (hs : isHello f →
    (linkSessionAcceptHello n.device f 1).2 = true → n.device.rxCounter = 0) : ReplayInv
    (n.deviceGets i f) := by
  rw [Net.deviceGets]
  split_ifs with hhello
  · refine ReplayInv.send ?_ _ _ _
    rcases linkSessionAcceptHello_cases n.device f 1 with hno | ⟨sid,hyes⟩
    · simp only [hno]
      exact h.congr rfl rfl rfl
    · have hnil := h.accepted_nil (hs hhello (by rw [hyes]))
      simp only [hyes]
      exact ⟨by simp [hnil],by simp [hnil]⟩
  · rcases linkSessionOpen_cases with hno | ⟨-,hne,hlt,plain,hyes⟩
    · rw [hno]
      exact h.congr rfl rfl rfl
    · rw [hyes]
      refine ⟨fun j hj => ?_,nodup_cons.mpr ⟨fun hi => ?_,h.nodup⟩⟩
      · rcases mem_cons.mp hj with rfl | hj
        · exact ⟨Net.lt_of_frameAt hf,f,hf,hne,UInt64.le_refl _⟩
        · obtain ⟨hl,g,hg,h0,hle⟩ := h.window j hj
          exact ⟨hl,g,hg,h0,UInt64.le_trans hle (UInt64.le_of_lt hlt)⟩
      · obtain ⟨-,g,hg,-,hle⟩ := h.window i hi
        rw [hf,Option.some.injEq] at hg
        subst hg
        exact absurd hle (UInt64.not_le.mpr hlt)

theorem ReplayInv.step (h : ReplayInv n) (hs : SafeStep n a) : ReplayInv (step n a) := by
  cases a with
  | hostHello sessionId msgId => exact h.send _ _ _
  | hostSeal channel msgId pt =>
    have hsealed : ReplayInv { n with
      host := (linkSessionSeal n.host channel msgId pt linkMaxFrame).1 } := h.congr rfl rfl rfl
    exact hsealed.send _ _ _
  | deviceSeal channel pt =>
    obtain ⟨k,hk,-⟩ := linkSessionSeal_frame channel pt n.device (n.msgId+1) linkMaxFrame
    have hsealed : ReplayInv { n with
        device := (linkSessionSeal n.device channel (n.msgId+1) pt linkMaxFrame).1
        msgId := n.msgId+1 } :=
      h.congr rfl rfl (by simp only [hk])
    exact hsealed.send _ _ _
  | toDevice i =>
    rw [LinkReplay.step]
    split
    · exact h
    · exact h.deviceGets (by assumption) (hs _ (by assumption))
  | toHost i =>
    rw [LinkReplay.step]
    split
    · exact h
    · rw [Net.hostGets]
      split_ifs <;> exact h.congr rfl rfl rfl

theorem ReplayInv.run (h : ReplayInv n) (hs : SafeRun n as) : ReplayInv (as.foldl
    LinkReplay.step n) := by
  induction as generalizing n with
  | nil => exact h
  | cons a as ih => exact ih (h.step hs.1) hs.2

/-- In every run in which no Hello reaches the device after a sealed frame, the device accepts
each frame at most once. -/
theorem accepted_at_most_once (key : Block) (keyId : UInt8) (as : List Action)
    (h : SafeRun (Net.init key keyId) as) (i : ℕ) :
    (as.foldl step (Net.init key keyId)).accepted.count i ≤ 1 := by
  have hinit : ReplayInv (Net.init key keyId) := ⟨by simp [Net.init],by simp [Net.init]⟩
  exact nodup_iff_count_le_one.mp (hinit.run h).nodup i

section

variable {n : Net} {i : ℕ} {s : Session} {msgId : UInt16}

theorem step_toDevice_sealed (hf : n.frameAt i = some (sealFrame s channel msgId pt))
    (hk : n.device.key = s.key) (hid : n.device.keyId = s.keyId)
    (hs : n.device.session = s.session) (hdir : peerDirection n.device.txDir = s.txDir)
    (ho : n.device.isOpen = true) (hpt : pt.length ≤ linkMaxPayload-24)
    (hnew : ¬(s.txCounter+1 = 0 ∨ s.txCounter+1 ≤ n.device.rxCounter)) :
    (step n (.toDevice i)).device = { n.device with rxCounter := s.txCounter+1 } ∧
      (step n (.toDevice i)).accepted = i::n.accepted ∧ (step n (.toDevice i)).sent = n.sent := by
  have hopen := linkSessionOpen_sealFrame s channel msgId hk hid hs hdir ho hpt
  rw [if_neg hnew] at hopen
  rw [step,hf]
  simp [Net.deviceGets,not_isHello_sealFrame,hopen]

theorem step_toDevice_hello (hf : n.frameAt i = some helloFrame) (hk : n.device.keyId = 1)
    (hd : n.device.txDir = dirDevice) :
    (step n (.toDevice i)).device =
        { n.device with session := 1, txCounter := 0, rxCounter := 0, isOpen := true } ∧
      (step n (.toDevice i)).accepted = n.accepted ∧
      ∀ j < n.sent.length, (step n (.toDevice i)).frameAt j = n.frameAt j := by
  have hacc := accept_helloFrame hk hd
  rw [step,hf]
  simp only [Net.deviceGets,if_pos (show isHello helloFrame by decide),helloReply,hacc]
  exact ⟨rfl,rfl,fun j hj => Net.frameAt_send (n:={ n with device := _, msgId := _ }) hj⟩

theorem step_hostSeal (hh : n.host = hostOpen) (hl : n.sent.length = 2)
    (hn : step n (.hostSeal chCall 2 []) = n') :
    n'.frameAt 2 = some (sealFrame hostOpen chCall 2 []) ∧ n'.frameAt 0 = n.frameAt 0 ∧
      n'.sent.length = 3 ∧ n'.device = n.device ∧ n'.accepted = n.accepted := by
  have hseal := linkSessionSeal_open (s:=hostOpen) chCall 2 rfl
    (show ([] : Bytes).length ≤ linkMaxPayload-24 by simp)
  have hstep : step n (.hostSeal chCall 2 []) =
      Net.send { n with host := { hostOpen with txCounter := hostOpen.txCounter+1 } } .host true
        (some (sealWire hostOpen chCall 2 [])) := by
    simp only [step,hh,hseal]
  rw [←hn,hstep]
  refine ⟨?_,Net.frameAt_send (n:={ n with host := _ }) (by simp only [hl]; omega),?_,rfl,rfl⟩
  · have hlast : (n.sent++[(⟨.host,true,sealWire hostOpen chCall 2 []⟩ : Sent)]).getD 2
        ⟨.host,false,[]⟩ = ⟨.host,true,sealWire hostOpen chCall 2 []⟩ := by
      rw [getD_append_right _ _ _ _ hl.le,hl]
      rfl
    simp only [Net.send,Net.frameAt,Option.map_some,Option.toList_some,hlast,
      linkFrameDecode_sealWire hostOpen chCall 2
        (show ([] : Bytes).length ≤ linkMaxPayload-24 by simp)]
  · simp [Net.send,hl]

theorem replay_after_hello (hh : n.host = hostOpen) (hd : n.device = deviceOpen)
    (hl : n.sent.length = 2) (hf : n.frameAt 0 = some helloFrame) (ha : n.accepted = []) :
    ([Action.hostSeal chCall 2 [],.toDevice 2,.toDevice 0,.toDevice 2].foldl step n).accepted =
      [2,2] := by
  simp only [foldl_cons,foldl_nil]
  generalize hn : step n (.hostSeal chCall 2 []) = n₁
  obtain ⟨h2,h0,hlen,hdev,hacc⟩ := step_hostSeal hh hl hn
  rw [hd] at hdev
  rw [hf] at h0
  obtain ⟨hdev₂,hacc₂,hsent₂⟩ := step_toDevice_sealed h2 (by rw [hdev]; rfl) (by rw [hdev]; rfl)
    (by rw [hdev]; rfl) (by rw [hdev]; rfl) (by rw [hdev]; rfl) (by simp) (by rw [hdev]; decide)
  have hframes (j : ℕ) : (step n₁ (.toDevice 2)).frameAt j = n₁.frameAt j := by
    rw [Net.frameAt,hsent₂,Net.frameAt]
  generalize step n₁ (.toDevice 2) = n₂ at *
  obtain ⟨hdev₃,hacc₃,hframes₃⟩ := step_toDevice_hello (n:=n₂) ((hframes 0).trans h0)
    (by rw [hdev₂,hdev]; rfl) (by rw [hdev₂,hdev]; rfl)
  have h2₃ := (hframes₃ 2 (by rw [hsent₂,hlen]; omega)).trans ((hframes 2).trans h2)
  generalize step n₂ (.toDevice 0) = n₃ at *
  obtain ⟨-,hacc₄,-⟩ := step_toDevice_sealed h2₃ (by rw [hdev₃,hdev₂,hdev]; rfl)
    (by rw [hdev₃,hdev₂,hdev]; rfl) (by rw [hdev₃]; rfl) (by rw [hdev₃,hdev₂,hdev]; rfl)
    (by rw [hdev₃]) (by simp) (by rw [hdev₃]; change ¬(_ ∨ _ ≤ (0 : UInt64)); decide)
  rw [hacc₄,hacc₃,hacc₂,hacc,ha]

end

def handshake : List Action := [.hostHello 0 1,.toDevice 0,.toHost 1]

def greeted : Net := handshake.foldl step (Net.init (Vector.replicate 16 0) 1)

theorem greeted_eq : greeted.host = hostOpen ∧ greeted.device = deviceOpen ∧
    greeted.sent.length = 2 ∧ greeted.accepted = [] ∧ greeted.frameAt 0 = some helloFrame := by
  decide +kernel

/-- The host sends one call after the handshake; it is accepted once. -/
theorem accepted_at_most_once_first_call :
    ((handshake++[Action.hostSeal chCall 2 [],.toDevice 2]).foldl step
      (Net.init (Vector.replicate 16 0) 1)).accepted.count 2 ≤ 1 := by
  obtain ⟨hh,-,hl,-,-⟩ := greeted_eq
  have hgreet : SafeRun (Net.init (Vector.replicate 16 0) 1) handshake :=
    ⟨trivial,fun _ _ _ _ => rfl,trivial,trivial⟩
  have hcall : SafeRun greeted [Action.hostSeal chCall 2 [],.toDevice 2] := by
    refine ⟨trivial,?_,trivial⟩
    intro f hf hhello
    rw [(step_hostSeal hh hl rfl).1,Option.some.injEq] at hf
    exact absurd (hf ▸ hhello) not_isHello_sealFrame
  exact accepted_at_most_once _ _ _ (hgreet.append hcall) 2

/-- A replayed Hello, then a replayed call: the device accepts the call a second time. -/
theorem hello_replay_accepts_twice :
    ((handshake++[Action.hostSeal chCall 2 [],.toDevice 2,.toDevice 0,.toDevice 2]).foldl step
      (Net.init (Vector.replicate 16 0) 1)).accepted.count 2 = 2 := by
  obtain ⟨hh,hd,hl,ha,hf⟩ := greeted_eq
  have h := replay_after_hello hh hd hl hf ha
  rw [foldl_append]
  change (foldl step greeted _).accepted.count 2 = 2
  rw [h]
  rfl

end TinyDeviceOs.LinkReplay
