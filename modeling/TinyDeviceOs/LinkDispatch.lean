import Mathlib.Data.List.TakeWhile
import TinyDeviceOs.LinkFrame

/-! `link/link_dispatch.c`: a call is read, checked and handed to a handler, which acts on a state
`ω`. C strings are the bytes up to their terminator. -/
namespace TinyDeviceOs.LinkDispatch

open LittleEndian LinkFrame List

def tagMethod : UInt8 := 1
def tagApp : UInt8 := 2
def tagText : UInt8 := 3
def tagBody : UInt8 := 4
def tagExtent : UInt8 := 5
def tagDuration : UInt8 := 6
def tagPressed : UInt8 := 7

def tagStatus : UInt8 := 1
def tagCode : UInt8 := 1
def tagErrmsg : UInt8 := 2

def methodNotify : UInt8 := 1
def methodMessage : UInt8 := 2
def methodEvent : UInt8 := 3
def methodKey : UInt8 := 4

def extentBand : UInt8 := 0
def extentFull : UInt8 := 1

def errUnknownApp : UInt16 := 1
def errBadArgs : UInt16 := 2
def errUnknownMethod : UInt16 := 3
def errBusy : UInt16 := 4

def text (s : String) : Bytes := s.toList.map fun c => UInt8.ofNat c.toNat

/-- The bytes before the first NUL. -/
def cstr (buf : Bytes) : Bytes := buf.takeWhile (· ≠ 0)

/-- A handler returns a C `int`; a missing one is null. -/
structure Handlers (ω : Type) where
  notify : Option (Bytes → Option Bytes → UInt8 → UInt32 → ω → ω × ℤ)
  message : Option (Bytes → Bytes → ω → ω × ℤ)
  event : Option (Bytes → Bytes → Bytes → ω → ω × ℤ)
  key : Option (Bytes → Bool → ω → ω × ℤ)

inductive HandlerCall
  | notify (title : Bytes) (body : Option Bytes) (extent : UInt8) (duration : UInt32)
  | message (app name : Bytes)
  | event (app name payload : Bytes)
  | key (name : Bytes) (pressed : Bool)
  deriving DecidableEq

/-- The bytes before the terminator, or `none` for `-1`. -/
def copyStr (payload : Bytes) (tag : UInt8) (cap : ℕ) : Option Bytes :=
  (linkTlvGet tag 160 payload).map (·.take (cap-1))

/-- With the check that the string is not empty. -/
def copyNonempty (payload : Bytes) (tag : UInt8) (cap : ℕ) : Option Bytes :=
  match copyStr payload tag cap with
  | some s => if cstr s = [] then none else some (cstr s)
  | none => none

/-- Channel and payload; `none` is `-1`. -/
abbrev Reply := Option (UInt8 × Bytes)

def putError (cap : ℕ) (code : UInt16) (msg : Bytes) : Reply := do
  let buf ← linkTlvPutU16 [] cap tagCode code
  let buf ← linkTlvPutStr buf cap tagErrmsg msg
  return (chError,buf)

def putOk (cap : ℕ) : Reply := do
  let buf ← linkTlvPutU8 [] cap tagStatus 0
  return (chResult,buf)

section

variable (payload : Bytes)

def byteField (tag default : UInt8) : UInt8 :=
  match linkTlvGet tag 1 payload with
  | some [b] => b
  | _ => default

def durationField : UInt32 :=
  match linkTlvGet tagDuration 4 payload with
  | some [b₀,b₁,b₂,b₃] => u32 b₀ b₁ b₂ b₃
  | _ => 0

/-- Absent when it was not copied or is empty. -/
def bodyField : Option Bytes := copyNonempty payload tagBody 160

end

/-- For a handler that did not return `0`. -/
def appCode (rc : ℤ) : UInt16 := if 0 < rc then UInt16.ofNat rc.toNat else errUnknownApp

variable {ω : Type}

section

variable (h : Handlers ω)
include h

variable (payload : Bytes) (cap : ℕ)

def dispatchNotify (w : ω) : ω × Reply :=
  match h.notify,copyNonempty payload tagText 160 with
  | some notify,some title =>
    let (w,rc) := notify title (bodyField payload) (byteField payload tagExtent extentBand)
      (durationField payload) w
    (w,if rc ≠ 0 then putError cap errBadArgs (text "notify") else putOk cap)
  | _,_ => (w,putError cap errBadArgs (text "title"))

def appReply (app : Bytes) (rc : ℤ) : Reply :=
  if rc ≠ 0 then putError cap (appCode rc) app else putOk cap

def dispatchApp (method : UInt8) (payload : Bytes) (cap : ℕ) (w : ω) : ω × Reply :=
  match copyNonempty payload tagApp 32,copyNonempty payload tagText 160 with
  | some app,some name =>
    if method = methodMessage then
      match h.message with
      | none => (w,putError cap errUnknownMethod (text "message"))
      | some message =>
        let (w,rc) := message app name w
        (w,appReply cap app rc)
    else
      match h.event with
      | none => (w,putError cap errUnknownMethod (text "event"))
      | some event =>
        let (w,rc) := event app name ((linkTlvGet tagBody 64 payload).getD []) w
        (w,appReply cap app rc)
  | _,_ => (w,putError cap errBadArgs (text "app"))

def dispatchKey (w : ω) : ω × Reply :=
  match h.key,copyNonempty payload tagText 160 with
  | some key,some name =>
    let (w,rc) := key name (byteField payload tagPressed 1 ≠ 0) w
    (w,if rc ≠ 0 then putError cap errBadArgs (text "key") else putOk cap)
  | _,_ => (w,putError cap errBadArgs (text "key"))

/-- With `cap` bytes of room for the reply. -/
def linkDispatchCall (w : ω) : ω × Reply :=
  match linkTlvGet tagMethod 1 payload with
  | some [method] =>
    if method = methodNotify then dispatchNotify h payload cap w
    else if method = methodMessage ∨ method = methodEvent then dispatchApp h method payload cap w
    else if method = methodKey then dispatchKey h payload cap w
    else (w,putError cap errUnknownMethod (text "method"))
  | _ => (w,putError cap errBadArgs (text "method"))

end

theorem putError_eq (code : UInt16) (hm : msg.length ≤ 255)
    (hc : 6+msg.length ≤ cap) :
    putError cap code msg =
      some (chError,(tagCode::2::le16 code)++tagErrmsg::UInt8.ofNat msg.length::msg) := by
  have h16 : linkTlvPutU16 [] cap tagCode code = some (tagCode::2::le16 code) := by
    rw [linkTlvPutU16,linkTlvPut,if_neg (by simp; omega)]
    rfl
  have hstr : linkTlvPutStr (tagCode::2::le16 code) cap tagErrmsg msg =
      some ((tagCode::2::le16 code)++tagErrmsg::UInt8.ofNat msg.length::msg) := by
    rw [linkTlvPutStr,if_neg (by omega),linkTlvPut,if_neg (by simp; omega)]
  rw [putError,h16]
  change (linkTlvPutStr (tagCode::2::le16 code) cap tagErrmsg msg).bind _ = _
  rw [hstr]
  rfl

/-- There is a reply, short enough to be sealed. -/
def Short (r : Reply) : Prop := ∃ channel reply, r = some (channel,reply) ∧ reply.length ≤ 37

theorem short_putError (hm : msg.length ≤ 31) : Short (putError linkMaxPayload code msg) :=
  ⟨_,_,putError_eq code (by omega) (by unfold linkMaxPayload; omega),by simp; omega⟩

theorem short_putOk : Short (putOk linkMaxPayload) := ⟨_,_,rfl,by decide⟩

theorem copyNonempty_length (h : copyNonempty payload tag cap = some s) : s.length ≤ cap-1 := by
  rw [copyNonempty,copyStr] at h
  cases hget : linkTlvGet tag 160 payload with
  | none => simp [hget] at h
  | some v =>
    simp only [hget,Option.map_some] at h
    split_ifs at h
    rw [← Option.some.inj h]
    exact (takeWhile_sublist _).length_le.trans (by simp)

theorem short_dispatchNotify : Short (dispatchNotify h payload linkMaxPayload w).2 := by
  rw [dispatchNotify]
  split
  · simp only
    split_ifs
    · exact short_putError (by decide)
    · exact short_putOk
  · exact short_putError (by decide)

theorem short_dispatchKey : Short (dispatchKey h payload linkMaxPayload w).2 := by
  rw [dispatchKey]
  split
  · simp only
    split_ifs
    · exact short_putError (by decide)
    · exact short_putOk
  · exact short_putError (by decide)

theorem short_dispatchApp : Short (dispatchApp h method payload linkMaxPayload w).2 := by
  have hreply {app : Bytes} (ha : copyNonempty payload tagApp 32 = some app) (rc : ℤ) :
      Short (appReply linkMaxPayload app rc) := by
    rw [appReply]
    split_ifs
    · exact short_putError (copyNonempty_length ha)
    · exact short_putOk
  rw [dispatchApp]
  split
  · rename_i happ _
    split_ifs
    · split
      · exact short_putError (by decide)
      · exact hreply happ _
    · split
      · exact short_putError (by decide)
      · exact hreply happ _
  · exact short_putError (by decide)

theorem short_linkDispatchCall (payload : Bytes) : Short (linkDispatchCall h payload
    linkMaxPayload w).2 := by
  rw [linkDispatchCall]
  split
  · split_ifs
    · exact short_dispatchNotify
    · exact short_dispatchApp
    · exact short_dispatchKey
    · exact short_putError (by decide)
  · exact short_putError (by decide)

theorem cstr_take_eq (hc : 0 < cap) : cstr (s.take (cap-1)) = s ↔ s.length < cap ∧ 0 ∉ s := by
  have hle : (cstr (s.take (cap-1))).length ≤ cap-1 :=
    (takeWhile_sublist _).length_le.trans (by simp)
  constructor
  · intro h
    have hl : s.length < cap := by rw [h] at hle; omega
    refine ⟨hl,fun h0 => ?_⟩
    rw [take_of_length_le (by omega),cstr,takeWhile_eq_self_iff] at h
    simpa using h 0 h0
  · rintro ⟨hl,h0⟩
    rw [take_of_length_le (by omega),cstr,takeWhile_eq_self_iff]
    intro b hb
    simpa using fun hz : b = 0 => h0 (hz ▸ hb)

theorem cstr_take_eq_nil (hc : 1 < cap) (hs : s ≠ []) :
    cstr (s.take (cap-1)) = [] ↔ s.head? = some 0 := by
  obtain ⟨n,hn⟩ : ∃ n, cap-1 = n+1 := ⟨cap-2,by omega⟩
  match s with
  | [] => exact absurd rfl hs
  | b::bs =>
    rw [hn,take_succ_cons,cstr,takeWhile_cons]
    by_cases hb : b = 0 <;> simp [hb]

end TinyDeviceOs.LinkDispatch
