import TinyDeviceOs.HostCodec
import TinyDeviceOs.LinkDispatch

/-! Calls from the host's `encode_call` to the device's `link_dispatch_call`. Strings are their
UTF-8 bytes; an absent or false optional field is the empty string. -/
namespace TinyDeviceOs.HostCalls

open LittleEndian LinkFrame LinkDispatch HostCodec List Option

/-- With the field values that `encode_call` reads. -/
inductive HostCall
  | notify (title body : Bytes) (full : Bool) (duration : ℤ)
  | message (app name payload : Bytes)
  | event (app name payload : Bytes)
  | key (name : Bytes) (pressed : Bool)
  deriving DecidableEq

def putOptional (buf : Bytes) (tag : UInt8) (value : Bytes) : Option Bytes :=
  if value ≠ [] then tlvPut buf tag value else some buf

/-- Of messages and events. `raw[:64]` is empty only when the payload is. -/
def encodeApp (method : UInt8) (app name payload : Bytes) : Option Bytes := do
  let p ← tlvPut [] tagMethod [method]
  if app = [] ∨ name = [] then none
  else
    let p ← tlvPut p tagApp app
    let p ← tlvPut p tagText name
    putOptional p tagBody (payload.take 64)

/-- `encode_call`; `none` is a `ValueError`. -/
def encodeCall : HostCall → Option Bytes
  | .notify title body full duration => do
    let p ← tlvPut [] tagMethod [methodNotify]
    if title = [] then none
    else
      let p ← tlvPut p tagText title
      let p ← putOptional p tagBody body
      let p ← tlvPut p tagExtent [if full then 1 else 0]
      tlvPut p tagDuration (toBytes 4 (duration % 2^32).toNat)
  | .message app name payload => encodeApp methodMessage app name payload
  | .event app name payload => encodeApp methodEvent app name payload
  | .key name pressed => do
    let p ← tlvPut [] tagMethod [methodKey]
    if name = [] then none
    else
      let p ← tlvPut p tagText name
      tlvPut p tagPressed [if pressed then 1 else 0]

def recorder : Handlers (List HandlerCall) where
  notify := some fun title body extent duration w => (w++[.notify title body extent duration],0)
  message := some fun app name w => (w++[.message app name],0)
  event := some fun app name payload w => (w++[.event app name payload],0)
  key := some fun name pressed w => (w++[.key name pressed],0)

def Matches : HostCall → HandlerCall → Prop
  | .notify title body full duration,.notify title' body' extent' duration' =>
    title' = title ∧ body' = (if body = [] then none else some body) ∧
      extent' = (if full then extentFull else extentBand) ∧ (duration'.toNat : ℤ) = duration
  | .message app name _,.message app' name' => app' = app ∧ name' = name
  | .event app name payload,.event app' name' payload' =>
    app' = app ∧ name' = name ∧ payload' = payload
  | .key name pressed,.key name' pressed' => name' = name ∧ pressed' = pressed
  | _,_ => False

/-- Refused before any handler runs, or handed on unchanged. -/
def Arrives (c : HostCall) (payload : Bytes) (cap : ℕ) : Prop :=
  (linkDispatchCall recorder payload cap []).1 = [] ∧
      (∃ reply, (linkDispatchCall recorder payload cap []).2 = some (chError,reply)) ∨
    ∃ call, (linkDispatchCall recorder payload cap []).1 = [call] ∧ Matches c call

/-- Longer than its buffer, or empty as a C string. -/
def Refused (s : Bytes) : Prop := 160 < s.length ∨ s.head? = some 0
  deriving Decidable

/-- A string that a buffer of `cap` bytes holds whole. -/
def Kept (cap : ℕ) (s : Bytes) : Prop := s.length < cap ∧ 0 ∉ s

/-- The calls that arrive unchanged or are refused. -/
def Faithful : HostCall → Prop
  | .notify title body _ duration =>
    Refused title ∨ Kept 160 title ∧ Kept 160 body ∧ 0 ≤ duration ∧ duration < 2^32
  | .message app name _ => Refused app ∨ Refused name ∨ Kept 32 app ∧ Kept 160 name
  | .event app name payload =>
    Refused app ∨ Refused name ∨ Kept 32 app ∧ Kept 160 name ∧ payload.length ≤ 64
  | .key name _ => Refused name ∨ Kept 160 name

def field (tag : UInt8) (value : Bytes) : Bytes := tag::UInt8.ofNat value.length::value

theorem tlvPut_eq_some : tlvPut buf tag value = some p ↔ value.length ≤ 255 ∧ p = buf++field tag
    value := by
  rw [tlvPut]
  split_ifs with h
  · simp
    omega
  · simp only [some.injEq,field]
    constructor
    · rintro rfl
      exact ⟨by omega,rfl⟩
    · rintro ⟨-,rfl⟩
      rfl

theorem linkTlvGet_append (tag : UInt8) (cap : ℕ) (hv : value.length ≤ 255) (rest : Bytes) :
    linkTlvGet tag cap (field t value++rest) = if t = tag then if cap < value.length then none
    else some value else linkTlvGet tag cap rest :=
  linkTlvGet_field tag cap value rest hv

theorem linkTlvGet_last (hv : value.length ≤ 255) : linkTlvGet tag cap (field t value) = if t =
    tag then if cap < value.length then none else some value else none := by
  simpa using linkTlvGet_append tag (t:=t) cap hv []

def optionalField (tag : UInt8) (value : Bytes) : Bytes := if value = [] then [] else field tag value

theorem putOptional_eq_some : putOptional buf tag value = some p ↔ value.length ≤ 255 ∧ p =
    buf++optionalField tag value := by
  by_cases hv : value = []
  · simp [putOptional,optionalField,hv,eq_comm]
  · rw [putOptional,if_pos hv,tlvPut_eq_some,optionalField,if_neg hv]

theorem linkTlvGet_optional (hv : value.length ≤ 255) : linkTlvGet tag cap (optionalField t
    value++rest) = if t = tag ∧ value ≠ [] then if cap < value.length then none else some value
    else linkTlvGet tag cap rest := by
  by_cases hn : value = []
  · simp [optionalField,hn]
  · rw [optionalField,if_neg hn,linkTlvGet_append tag cap hv]
    simp [hn]

theorem copyNonempty_of_get {payload v : Bytes} (hc : 1 < cap)
    (hv : v ≠ []) (h : linkTlvGet tag 160 payload = if 160 < v.length then none else some v) :
    copyNonempty payload tag cap = if Refused v then none else some (cstr (v.take (cap-1))) := by
  have hnil := cstr_take_eq_nil hc hv
  rw [copyNonempty,copyStr,h]
  by_cases hl : 160 < v.length
  · rw [if_pos hl,if_pos (show Refused v from .inl hl)]
    rfl
  · rw [if_neg hl]
    by_cases hz : v.head? = some 0
    · rw [if_pos (show Refused v from .inr hz)]
      simp [hnil.mpr hz]
    · rw [if_neg (show ¬Refused v from fun h => h.elim hl hz)]
      simp [mt hnil.mp hz]

theorem arrives_refused (h : linkDispatchCall recorder p cap [] = ([],some (chError,reply))) :
    Arrives c p cap :=
  .inl ⟨by rw [h],reply,by rw [h]⟩

theorem arrives_called (h : (linkDispatchCall recorder p cap []).1 = [call]) : Arrives c p cap ↔
    Matches c call := by
  rw [Arrives,h]
  simp

section

theorem encode_notify (h : encodeCall (.notify title body full duration) = some p) :
    title ≠ [] ∧ title.length ≤ 255 ∧ body.length ≤ 255 ∧
      p = field tagMethod [methodNotify]++(field tagText title++(optionalField tagBody body++
        (field tagExtent [if full then 1 else 0]++
          field tagDuration (toBytes 4 (duration % 2^32).toNat)))) := by
  simp only [encodeCall,bind_eq_bind,bind_eq_some_iff,tlvPut_eq_some] at h
  obtain ⟨p₁,⟨-,rfl⟩,h⟩ := h
  by_cases ht : title = []
  · simp [ht] at h
  simp only [ht,if_false,bind_eq_some_iff,tlvPut_eq_some,putOptional_eq_some] at h
  obtain ⟨p₂,⟨htl,rfl⟩,p₃,⟨hb,rfl⟩,p₄,⟨-,rfl⟩,-,rfl⟩ := h
  exact ⟨ht,htl,hb,by simp⟩

theorem durationField_eq (hn : n < 2^32) (h : linkTlvGet tagDuration 4 q = some (toBytes 4 n)) :
    (durationField q).toNat = n := by
  have hr : toBytes 4 n = [UInt8.ofNat n,UInt8.ofNat (n/256),UInt8.ofNat (n/256/256),
    UInt8.ofNat (n/256/256/256)] := rfl
  rw [durationField,h,hr]
  simp only
  rw [u32_toNat,← hr,ofBytes_toBytes]
  exact Nat.mod_eq_of_lt hn

theorem dispatch_notify (h : encodeCall (.notify title body full duration) = some p) : ∃ d :
    UInt32, d.toNat = (duration % 2^32).toNat ∧ linkDispatchCall recorder p cap [] = if Refused
    title then ([],putError cap errBadArgs (text "title")) else ([.notify (cstr (title.take
    159)) (if body = [] ∨ Refused body then none else some (cstr (body.take 159))) (if full then
    1 else 0) d],putOk cap) := by
  obtain ⟨ht,htl,hbl,hp⟩ := encode_notify h
  have hget (tag : UInt8) (n : ℕ) := congrArg (linkTlvGet tag n) hp
  simp only [linkTlvGet_append _ _ (show [methodNotify].length ≤ 255 by simp),
    linkTlvGet_append _ _ htl,linkTlvGet_optional hbl,
    linkTlvGet_append _ _ (show [if full then (1 : UInt8) else 0].length ≤ 255 by simp),
    linkTlvGet_last
      (show (toBytes 4 (duration % 2^32).toNat).length ≤ 255 by simp)] at hget
  have hmethod : linkTlvGet tagMethod 1 p = some [methodNotify] := by simp [hget]
  have htitle : copyNonempty p tagText 160 =
      if Refused title then none else some (cstr (title.take 159)) :=
    copyNonempty_of_get (by norm_num) ht (by simp [hget,tagMethod,tagText])
  have hbody : bodyField p =
      if body = [] ∨ Refused body then none else some (cstr (body.take 159)) := by
    by_cases hb : body = []
    · simp [bodyField,copyNonempty,copyStr,hget,hb,tagMethod,tagText,tagBody,tagExtent,tagDuration]
    · rw [bodyField,copyNonempty_of_get (by norm_num) hb
        (by simp [hget,hb,tagMethod,tagText,tagBody])]
      simp [hb]
  have hextent : byteField p tagExtent extentBand = if full then 1 else 0 := by
    simp [byteField,hget,tagMethod,tagText,tagBody,tagExtent]
  have hduration : linkTlvGet tagDuration 4 p = some (toBytes 4 (duration % 2^32).toNat) := by
    simp [hget,tagMethod,tagText,tagBody,tagExtent,tagDuration]
  refine ⟨_,durationField_eq (by omega) hduration,?_⟩
  rw [linkDispatchCall,hmethod]
  simp only [if_true,dispatchNotify,htitle,hbody,hextent]
  by_cases hr : Refused title <;> simp [hr,recorder]

end

section

theorem encode_app (h : encodeApp method app name payload = some p) :
    app ≠ [] ∧ name ≠ [] ∧ app.length ≤ 255 ∧ name.length ≤ 255 ∧
      p = field tagMethod [method]++(field tagApp app++(field tagText name++
        (optionalField tagBody (payload.take 64)++[]))) := by
  simp only [encodeApp,bind_eq_bind,bind_eq_some_iff,tlvPut_eq_some] at h
  obtain ⟨p₁,⟨-,rfl⟩,h⟩ := h
  by_cases hn : app = [] ∨ name = []
  · simp [hn] at h
  simp only [hn,if_false,bind_eq_some_iff,tlvPut_eq_some,putOptional_eq_some] at h
  obtain ⟨p₂,⟨ha,rfl⟩,p₃,⟨ht,rfl⟩,-,rfl⟩ := h
  push Not at hn
  exact ⟨hn.1,hn.2,ha,ht,by simp⟩

theorem dispatch_app (cap : ℕ) (hm : method = methodMessage ∨ method = methodEvent)
    (h : encodeApp method app name payload = some p) :
    linkDispatchCall recorder p cap [] =
      if Refused app ∨ Refused name then ([],putError cap errBadArgs (text "app"))
      else ([if method = methodMessage then
          .message (cstr (app.take 31)) (cstr (name.take 159))
        else .event (cstr (app.take 31)) (cstr (name.take 159)) (payload.take 64)],
        putOk cap) := by
  obtain ⟨ha,hn,hal,hnl,hp⟩ := encode_app h
  have hpl : (payload.take 64).length ≤ 64 := by simp
  have hget (tag : UInt8) (n : ℕ) := congrArg (linkTlvGet tag n) hp
  simp only [linkTlvGet_append _ _ (show [method].length ≤ 255 by simp),
    linkTlvGet_append _ _ hal,linkTlvGet_append _ _ hnl,
    linkTlvGet_optional (hpl.trans (by norm_num)),linkTlvGet_nil] at hget
  have hmethod : linkTlvGet tagMethod 1 p = some [method] := by simp [hget]
  have happ : copyNonempty p tagApp 32 =
      if Refused app then none else some (cstr (app.take 31)) :=
    copyNonempty_of_get (by norm_num) ha (by simp [hget,tagMethod,tagApp])
  have hname : copyNonempty p tagText 160 =
      if Refused name then none else some (cstr (name.take 159)) :=
    copyNonempty_of_get (by norm_num) hn (by simp [hget,tagMethod,tagApp,tagText])
  have hextra : (linkTlvGet tagBody 64 p).getD [] = payload.take 64 := by
    by_cases hb : payload.take 64 = []
    · simp [hget,hb,tagMethod,tagApp,tagText,tagBody]
    · have hne : payload ≠ [] := by simpa using hb
      simp [hget,hne,tagMethod,tagApp,tagText,tagBody]
  have hne : method ≠ methodNotify := by
    rcases hm with rfl | rfl <;> decide
  rw [linkDispatchCall,hmethod]
  simp only [hne,hm,if_true,if_false,dispatchApp,happ,hname]
  by_cases hra : Refused app
  · simp [hra]
  by_cases hrn : Refused name
  · simp [hra,hrn]
  by_cases hmsg : method = methodMessage <;>
    simp [hra,hrn,hmsg,recorder,appReply,hextra]

end

section

theorem encode_key (h : encodeCall (.key name pressed) = some p) :
    name ≠ [] ∧ name.length ≤ 255 ∧ p = field tagMethod [methodKey]++(field tagText name++
      field tagPressed [if pressed then 1 else 0]) := by
  simp only [encodeCall,bind_eq_bind,bind_eq_some_iff,tlvPut_eq_some] at h
  obtain ⟨p₁,⟨-,rfl⟩,h⟩ := h
  by_cases hn : name = []
  · simp [hn] at h
  simp only [hn,if_false,bind_eq_some_iff,tlvPut_eq_some] at h
  obtain ⟨p₂,⟨ht,rfl⟩,-,rfl⟩ := h
  exact ⟨hn,ht,by simp⟩

theorem dispatch_key (cap : ℕ) (h : encodeCall (.key name pressed) = some p) :
    linkDispatchCall recorder p cap [] =
      if Refused name then ([],putError cap errBadArgs (text "key"))
      else ([.key (cstr (name.take 159)) pressed],putOk cap) := by
  obtain ⟨hn,hnl,hp⟩ := encode_key h
  have hget (tag : UInt8) (n : ℕ) := congrArg (linkTlvGet tag n) hp
  simp only [linkTlvGet_append _ _ (show [methodKey].length ≤ 255 by simp),
    linkTlvGet_append _ _ hnl,
    linkTlvGet_last (show [if pressed then (1 : UInt8) else 0].length ≤ 255 by simp)]
    at hget
  have hmethod : linkTlvGet tagMethod 1 p = some [methodKey] := by simp [hget]
  have hname : copyNonempty p tagText 160 =
      if Refused name then none else some (cstr (name.take 159)) :=
    copyNonempty_of_get (by norm_num) hn (by simp [hget,tagMethod,tagText])
  have hpressed : byteField p tagPressed 1 = if pressed then 1 else 0 := by
    simp [byteField,hget,tagMethod,tagText,tagPressed]
  have hne : ¬(methodKey = methodMessage ∨ methodKey = methodEvent) := by decide
  rw [linkDispatchCall,hmethod]
  simp only [show methodKey ≠ methodNotify by decide,hne,if_true,if_false,dispatchKey,hname,hpressed]
  by_cases hr : Refused name <;> cases pressed <;> simp [hr,recorder]

end

theorem Kept.not_refused (h : Kept 160 s) : ¬Refused s := by
  rintro (hl | h0)
  · have := h.1
    omega
  · exact h.2 (mem_of_head? h0)

theorem body_kept : (if body = [] ∨ Refused body then none else some (cstr (body.take 159))) =
    (if body = [] then none else some body) ↔ Kept 160 body := by
  by_cases hb : body = []
  · simp [hb,Kept]
  by_cases hr : Refused body
  · simpa [hb,hr] using fun hk => Kept.not_refused hk hr
  · simpa [hb,hr,Kept] using cstr_take_eq (show 0 < 160 by norm_num)

theorem arrives_refused_with (hc : 12 ≤ cap) (hm : msg.length ≤ 6) (h : linkDispatchCall
    recorder p cap [] = ([],putError cap code msg)) : Arrives c p cap := by
  rw [putError_eq code (by omega) (by omega)] at h
  exact arrives_refused h

/-- A call of the host arrives unchanged or is refused exactly under these conditions. -/
theorem arrives_iff_faithful {c : HostCall} {p : Bytes} {cap : ℕ} (h : encodeCall c = some p)
    (hc : 12 ≤ cap) : Arrives c p cap ↔ Faithful c := by
  have h160 (s : Bytes) : cstr (s.take 159) = s ↔ Kept 160 s := cstr_take_eq (show 0 < 160 by norm_num)
  have h32 (s : Bytes) : cstr (s.take 31) = s ↔ Kept 32 s := cstr_take_eq (show 0 < 32 by norm_num)
  cases c with
  | notify title body full duration =>
    obtain ⟨d,hd,hdisp⟩ := dispatch_notify h
    by_cases hr : Refused title
    · rw [if_pos hr] at hdisp
      simp [arrives_refused_with hc (by decide) hdisp,Faithful,hr]
    · rw [if_neg hr] at hdisp
      have hdur : (d.toNat : ℤ) = duration ↔ 0 ≤ duration ∧ duration < 2^32 := by omega
      rw [arrives_called (by rw [hdisp])]
      simp [Matches,Faithful,hr,h160,body_kept,hdur,extentFull,extentBand]
  | message app name payload =>
    have hdisp := dispatch_app cap (.inl rfl) h
    by_cases hr : Refused app ∨ Refused name
    · rw [if_pos hr] at hdisp
      simp only [arrives_refused_with hc (by decide) hdisp,Faithful,true_iff]
      tauto
    · rw [if_neg hr,if_pos rfl] at hdisp
      rw [arrives_called (by rw [hdisp])]
      simp only [Matches,Faithful,h160,h32]
      tauto
  | event app name payload =>
    have hdisp := dispatch_app cap (.inr rfl) h
    by_cases hr : Refused app ∨ Refused name
    · rw [if_pos hr] at hdisp
      simp only [arrives_refused_with hc (by decide) hdisp,Faithful,true_iff]
      tauto
    · rw [if_neg hr,if_neg (by decide)] at hdisp
      rw [arrives_called (by rw [hdisp])]
      simp only [Matches,Faithful,h160,h32,take_eq_self_iff]
      tauto
  | key name pressed =>
    have hdisp := dispatch_key cap h
    by_cases hr : Refused name
    · rw [if_pos hr] at hdisp
      simp [arrives_refused_with hc (by decide) hdisp,Faithful,hr]
    · rw [if_neg hr] at hdisp
      rw [arrives_called (by rw [hdisp])]
      simp [Matches,Faithful,h160,hr]

/-- A key name arrives as it was sent. -/
theorem arrives_key_up :
    Arrives (.key (text "up") true) [1,1,4,3,2,117,112,7,1,1] linkMaxPayload :=
  (arrives_iff_faithful (by decide) (by decide)).mpr (.inr ⟨by decide,by decide⟩)

/-- An app name of thirty-two characters reaches the handler without its last one. -/
theorem message_app_truncated :
    encodeCall (.message (replicate 32 97) [104] []) =
        some ([1,1,2,2,32]++replicate 32 97++[3,1,104]) ∧
      ¬Arrives (.message (replicate 32 97) [104] [])
        ([1,1,2,2,32]++replicate 32 97++[3,1,104]) linkMaxPayload := by
  have hlog : (linkDispatchCall recorder ([1,1,2,2,32]++replicate 32 97++[3,1,104])
      linkMaxPayload []).1 = [.message (replicate 31 97) [104]] := by decide +kernel
  refine ⟨by decide +kernel,?_⟩
  rw [arrives_called hlog]
  simp [Matches]

end TinyDeviceOs.HostCalls
