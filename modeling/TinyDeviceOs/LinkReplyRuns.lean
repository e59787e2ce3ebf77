import TinyDeviceOs.LinkReplies

/-! Runs in which replies match calls, and the late reply that is returned to the wrong call. -/
namespace TinyDeviceOs.LinkReplyRuns

open List LittleEndian LinkFrame LinkCrypto LinkSession LinkStream LinkDispatch TtyService
  LinkBridge
  BridgeRx BridgeSends FramePipe HostCodec HostCalls HostSession HostLink LinkSystem
  LinkReplies
open BridgeNonces (quietEnv quietShell)

variable {ω : Type} {key : Block} {keyId : UInt8} {hs : Session}
  {ready inbound outbound : List Frame} {counter reads : ℕ}

section

variable (e : Env ω) (sh : Shell (Device ω))

/-- It is that of a reply produced for the very call. -/
def Matched (s : System ω) : Prop :=
  ∀ r ∈ s.host.returned, ∃ payload channel reply msgId, (r.1,payload) ∈ s.host.started ∧
    (r.1,payload,some (channel,reply)) ∈ s.answers ∧
    r.2 = describe ⟨UInt8.toNat channel,msgId,reply⟩

def Quiet (s : System ω) : Prop :=
  (∀ f ∈ (extractFrames (s.device.stream.buf++s.up)).1, f.channel ≠ chCall.toNat) ∧
    ∀ f ∈ s.host.ready++(extractFrames (s.host.stream++s.down)).1,
      f.channel ≠ chResult.toNat ∧ f.channel ≠ chError.toNat

/-- Calls before it have returned or nothing of them is on its way, and no push overflows the
window. -/
def Patient (s : System ω) : Op → Prop
  | .call _ => s.host.started.length = s.host.returned.length ∨ Quiet s
  | .deviceRx n _ => s.device.stream.buf.length+(s.up.take n).length ≤ linkMaxFrame
  | _ => True

structure Joined (key : Block) (keyId : UInt8) (s : System ω) (hs : Session)
    (ready inbound outbound : List Frame) : Prop where
  carries : Carries s hs ready inbound outbound
  fits : Fits key keyId hs ready s.host.phase
  ours : Ours key keyId s.device.core.session
  fromDevice : ∀ f ∈ ready++inbound, FromDevice key keyId f
  fromHost : ∀ f ∈ outbound, FromHost key keyId f
  books : Books key keyId s.answers s.host.phase s.host.started s.host.returned
    (ready++inbound) outbound
  matched : Matched s

def Inv (key : Block) (keyId : UInt8) (s : System ω) : Prop :=
  ∃ hs ready inbound outbound, Joined key keyId s hs ready inbound outbound

variable {e sh} {s : System ω}

theorem Joined.clear_of_quiet
    (h : Joined key keyId s hs ready inbound outbound) (hq : Quiet s) :
    calls outbound = [] ∧ replies (ready++inbound) = [] := by
  have hin : ∀ f ∈ inbound, Whole f :=
    fun f hf => (h.fromDevice f (mem_append_right _ hf)).whole
  obtain ⟨hup,hdown⟩ := hq
  rw [h.carries.up_eq,extractFrames_all h.carries.whole] at hup
  rw [h.carries.ready_eq,h.carries.down_eq,extractFrames_all hin,←map_append] at hdown
  constructor
  · refine filter_eq_nil_iff.mpr fun f hf hcall => ?_
    exact hup (seen f) (mem_map_of_mem hf) (congrArg UInt8.toNat (of_decide_eq_true hcall))
  · refine filter_eq_nil_iff.mpr fun f hf hreply => ?_
    obtain ⟨hresult,herror⟩ := hdown (seen f) (mem_map_of_mem hf)
    rcases of_decide_eq_true hreply with hch | hch
    · exact hresult (congrArg UInt8.toNat hch)
    · exact herror (congrArg UInt8.toNat hch)

theorem inv_start (key : Block) (keyId : UInt8) (world : ω) :
    Inv key keyId (start key keyId world) := by
  refine ⟨linkSessionInit (some key) keyId dirHost,[],[],[hello keyId 0 1],
    ⟨rfl,rfl,rfl,?_,by simpa using hello_whole keyId 0 1⟩,rfl,⟨⟨rfl,rfl,rfl⟩,nofun⟩,by simp,
    forall_mem_singleton.mpr (.inl rfl),
    .between (by simp [start,Link.init]) le_rfl fun _ => ⟨rfl,rfl⟩,by simp [Matched,start,Link.init]⟩
  have hup := start_up key keyId world
  rw [append_nil] at hup
  simpa [start,linkBridgeInit,Stream.empty] using hup

/-- `link_bridge_rx` has written the frames `out` and has `gs` to come. -/
structure Serving (key : Block) (keyId : UInt8) (s : System ω) (ready inbound : List Frame)
    (answers : List (ℕ × Bytes × Reply)) (c : Core ω) (out gs : List Frame) : Prop where
  ours : Ours key keyId c.session
  fromDevice : ∀ f ∈ out, FromDevice key keyId f
  fromHost : ∀ f ∈ gs, FromHost key keyId f
  books : Books key keyId answers s.host.phase s.host.started s.host.returned
    (ready++(inbound++out)) gs

theorem Serving.onWire (h : Serving key keyId s ready inbound answers c out (f::gs))
    (hout : tx.out = wires out)
    (hans : ∀ a, dispatched e c (wireOf f) = some a → a ∈ answers) :
    Delivered (Serving key keyId s ready inbound answers) f gs (onWire e sh (c,tx) (wireOf f)) := by
  have hto := forall_mem_cons.mp h.fromHost
  obtain ⟨hours,hresponds⟩ := onWire_fromHost e sh h.ours tx hto.1
  cases hok : (LinkBridge.onWire e sh (c,tx) (wireOf f)).2 with
  | true =>
    obtain ⟨fs,hfs,hr⟩ := hresponds hok
    refine .inl ⟨hok,out++fs,?_,hours,forall_mem_append.mpr ⟨h.fromDevice,hr.fromDevice⟩,
      hto.2,?_⟩
    · rw [hfs,hout,wires_append]
    · simpa only [append_assoc] using h.books.responds h.ours hr hans
  | false => exact .inr ⟨hok,hours,by simp,h.fromHost,h.books.shrink (by simp)⟩

section

variable (h : Inv key keyId s)
include h

theorem Inv.deviceRx (ho : Patient s (.deviceRx n cap)) : Inv key keyId (step e sh s (.deviceRx
    n cap)) := by
  obtain ⟨hs,ready,inbound,outbound,h⟩ := h
  obtain ⟨gs,out,hgs,hup,hsent,hserved⟩ := rx_frames cap
    (J:=Serving key keyId s ready inbound (step e sh s (.deviceRx n cap)).answers) rfl
    h.carries.whole h.carries.up_eq ho
    (fun c tx out f gs hd _ hout hJ => hJ.onWire hout fun a ha =>
      mem_append_right _ (mem_filterMap.mpr ⟨_,hd,ha⟩))
    ⟨h.ours,by simp,h.fromHost,h.books.mono rfl (by simp) (subset_append_left _ _)⟩
  refine ⟨hs,ready,inbound++out,gs,⟨h.carries.session_eq,h.carries.ready_eq,?_,hup,hgs⟩,h.fits,
    hserved.ours,?_,hserved.fromHost,hserved.books,fun r hr => ?_⟩
  · change s.host.stream++(s.down++sent _) = _
    rw [hsent,←append_assoc,h.carries.down_eq,wires_append]
  · rw [←append_assoc]
    exact forall_mem_append.mpr ⟨h.fromDevice,hserved.fromDevice⟩
  · obtain ⟨payload,channel,reply,msgId,hstarted,hanswer,htext⟩ := h.matched r hr
    exact ⟨payload,channel,reply,msgId,hstarted,mem_append_left _ hanswer,htext⟩

theorem Inv.devicePoll (nowMs : UInt32) (cap : ℕ) : Inv key keyId (step e sh s (.devicePoll
    nowMs cap)) := by
  obtain ⟨hs,ready,inbound,outbound,h⟩ := h
  cases hopen : s.device.core.session.isOpen with
  | false =>
    have hpoll : linkBridgePoll sh s.device nowMs true cap = ⟨s.device,[],some 0⟩ := by
      rw [linkBridgePoll,if_pos (.inl hopen)]
    have hsame : step e sh s (.devicePoll nowMs cap) = s := by simp [step,hpoll,sent]
    rw [hsame]
    exact ⟨hs,ready,inbound,outbound,h⟩
  | true =>
    obtain ⟨core,fs,m,hpoll,hseals,-,hon⟩ := poll_posts sh (h.ours.onSession hopen) nowMs cap
    have hposted : step e sh s (.devicePoll nowMs cap) =
        { s with device := ⟨s.device.stream,core⟩, down := s.down++wires fs } := by
      simp [step,hpoll,sent]
    rw [hposted]
    refine ⟨hs,ready,inbound++fs,outbound,
      ⟨h.carries.session_eq,h.carries.ready_eq,?_,h.carries.up_eq,h.carries.whole⟩,h.fits,
      ours_of_onSession hon,?_,h.fromHost,?_,h.matched⟩
    · rw [←append_assoc,h.carries.down_eq,wires_append]
    · rw [←append_assoc]
      exact forall_mem_append.mpr ⟨h.fromDevice,seals_fromDevice hseals⟩
    · rw [←append_assoc]
      exact h.books.send (replies_tty hseals)

theorem Inv.sendTty (data : Bytes) : Inv key keyId (step e sh s (.sendTty data)) := by
  rw [step]
  split_ifs with hidle
  · obtain ⟨hs,ready,inbound,outbound,h⟩ := h
    have hfits := h.fits
    rw [hidle] at hfits
    obtain ⟨k,m,fs,hsend,hfs⟩ := hfits.sendTty h.carries.session_eq data
    have hcalls : calls fs = [] := filter_eq_nil_iff.mpr fun f hf => by
      obtain ⟨k,msgId,pt,-,rfl⟩ := hfs f hf
      exact Bool.false_ne_true
    rw [hsend]
    refine ⟨_,ready,inbound,outbound++fs,⟨rfl,h.carries.ready_eq,h.carries.down_eq,?_,?_⟩,?_,
      h.ours,h.fromDevice,forall_mem_append.mpr ⟨h.fromHost,fun f hf => .inr (.inl (hfs f hf))⟩,
      h.books.of_calls ?_,h.matched⟩
    · rw [wires_append,←h.carries.up_eq,append_assoc]
    · exact forall_mem_append.mpr ⟨h.carries.whole,fun f hf => (hfs f hf).whole⟩
    · dsimp only
      rw [hidle]
      exact hfits.counted k
    · rw [calls_append,hcalls,append_nil]
  · exact h

theorem Inv.takeTty (n : ℕ) : Inv key keyId (step e sh s (.takeTty n)) := by
  rw [step]
  split_ifs with hidle
  · obtain ⟨hs,ready,inbound,outbound,h⟩ := h
    have hfits := h.fits
    rw [hidle] at hfits
    have hfrom := forall_mem_append.mp h.fromDevice
    have hdown := h.carries.down_eq
    rw [←take_append_drop (min n 256) s.down,←append_assoc] at hdown
    obtain ⟨gs,rest,rfl,hfound,hkept⟩ :=
      extractFrames_wires (fun f hf => (hfrom.2 f hf).whole) hdown
    have hfrom' := forall_mem_append.mp hfrom.2
    obtain ⟨hs₁,queued,hqueued,hon₁⟩ := absorb_on hfits hfrom.1
    obtain ⟨hs₂,fresh,hfresh,hon₂⟩ := absorb_on hon₁ hfrom'.1
    rw [HostLink.takeTty,h.carries.session_eq,h.carries.ready_eq,hqueued,hfound]
    dsimp only
    rw [hfresh]
    refine ⟨hs₂,[],rest,outbound,⟨rfl,rfl,hkept,h.carries.up_eq,h.carries.whole⟩,?_,h.ours,
      hfrom'.2,h.fromHost,h.books.shrink (by simp),h.matched⟩
    dsimp only
    rw [hidle]
    exact hon₂
  · exact h

theorem Inv.poll (n : ℕ) : Inv key keyId (step e sh s (.poll n)) := by
  rw [step]
  split_ifs with hidle
  · obtain ⟨hs,ready,inbound,outbound,h⟩ := h
    have hfits := h.fits
    rw [hidle] at hfits
    have hfrom := forall_mem_append.mp h.fromDevice
    have hdown := h.carries.down_eq
    rw [←take_append_drop (min n 256) s.down,←append_assoc] at hdown
    rw [HostLink.poll]
    split_ifs with hchunk
    · rw [hchunk,append_nil] at hdown
      exact ⟨hs,ready,inbound,outbound,⟨h.carries.session_eq,h.carries.ready_eq,hdown,
        h.carries.up_eq,h.carries.whole⟩,h.fits,h.ours,h.fromDevice,h.fromHost,h.books,h.matched⟩
    · obtain ⟨gs,rest,rfl,hfound,hkept⟩ :=
        extractFrames_wires (fun f hf => (hfrom.2 f hf).whole) hdown
      have hfrom' := forall_mem_append.mp hfrom.2
      obtain ⟨hs₁,fresh,hfresh,hon⟩ := absorb_on hfits hfrom'.1
      dsimp only
      rw [h.carries.session_eq,hfound,hfresh]
      refine ⟨hs₁,ready,rest,outbound,⟨rfl,h.carries.ready_eq,hkept,h.carries.up_eq,
        h.carries.whole⟩,?_,h.ours,forall_mem_append.mpr ⟨hfrom.1,hfrom'.2⟩,h.fromHost,
        h.books.shrink (by simp),h.matched⟩
      dsimp only
      rw [hidle]
      exact hon
  · exact h

end

theorem Inv.outcome {t : System ω} {l : Link} {payload : Bytes}
    {older : List (ℕ × Bytes)} {fs : List Frame}
    (hout : Outcome key keyId l counter fs t.host)
    (hstarted : l.started = (counter,payload)::older) (hlength : l.returned.length ≤ older.length)
    (hunderway : Underway key keyId t.answers counter payload (fs++inbound) outbound)
    (hfrom : ∀ f ∈ fs++inbound, FromDevice key keyId f)
    (hto : ∀ f ∈ outbound, FromHost key keyId f) (hwhole : ∀ f ∈ outbound, Whole f)
    (hours : Ours key keyId t.device.core.session) (hdown : l.stream++t.down = wires inbound)
    (hup : t.device.stream.buf++t.up = wires outbound)
    (hmatched : Matched { t with host := l }) : Inv key keyId t := by
  obtain ⟨host,device,up,down,answers⟩ := t
  have hmore : l.returned.length < l.started.length := by
    rw [hstarted,length_cons]
    omega
  have hfs := forall_mem_append.mp hfrom
  dsimp only at hout hunderway hours hdown hup hmatched
  cases hout with
  | @raised hs gs refused hon hgs =>
    exact ⟨hs,gs,inbound,outbound,⟨rfl,rfl,hdown,hup,hwhole⟩,hon,hours,
      fun f hf => hfrom f ((hgs.append_right inbound).subset hf),hto,
      .between (by simp) hmore.le fun hsame => absurd hsame hmore.ne',hmatched⟩
  | @waits hs hon =>
    exact ⟨hs,[],inbound,outbound,⟨rfl,rfl,hdown,hup,hwhole⟩,⟨hon,rfl⟩,hours,hfs.2,hto,
      .waiting rfl hstarted hlength (hunderway.shrink (by simp)),hmatched⟩
  | @returned hs hs' f gs plain hon hon' hgs hopen hreply =>
    obtain ⟨hcalls,hreplies,channel,reply,msgId,hmem,htext⟩ :=
      hunderway.own_reply hfs.1 hon hgs hopen hreply
    have hsub := (sublist_of_cons_sublist hgs).append_right inbound
    refine ⟨hs',gs,inbound,outbound,⟨rfl,rfl,hdown,hup,hwhole⟩,hon',hours,
      fun f hf => hfrom f (hsub.subset hf),hto,.between (by simp) hmore fun _ => ⟨hcalls,hreplies⟩,?_⟩
    refine forall_mem_cons.mpr ⟨⟨payload,channel,reply,msgId,?_,hmem,htext⟩,hmatched⟩
    dsimp only
    rw [hstarted]
    exact List.mem_cons_self

theorem Inv.call (h : Inv key keyId s) (ho : Patient s (.call c)) : Inv key keyId (step e sh s
    (.call c)) := by
  rw [step]
  split_ifs with hidle
  · obtain ⟨hs,ready,inbound,outbound,h⟩ := h
    have hfits := h.fits
    rw [hidle] at hfits
    rcases call_cases h.carries.session_eq with ⟨k,m,hcall⟩ | ⟨payload,henc,hp,hcount⟩
    · rw [hcall]
      refine ⟨_,ready,inbound,outbound,⟨rfl,h.carries.ready_eq,h.carries.down_eq,?_,
        h.carries.whole⟩,?_,h.ours,h.fromDevice,h.fromHost,h.books,h.matched⟩
      · rw [append_nil]
        exact h.carries.up_eq
      · dsimp only
        rw [hidle]
        exact hfits.counted k
    · have hf : HostSealed key keyId chCall (sealFrame (hostAt key keyId hs.txCounter) chCall
          (UInt16.ofNat (s.host.msg+1)) payload) := ⟨_,_,_,hp,rfl⟩
      have hnext := counter_succ hcount
      obtain ⟨hcalls,hreplies⟩ : calls outbound = [] ∧ replies (ready++inbound) = [] :=
        ho.elim (h.books.clear (by simp [hidle])) h.clear_of_quiet
      have hfrom := forall_mem_append.mp h.fromDevice
      have hout := answer_outcome (l:={ s.host with
        session := Host.ofSession { hs with txCounter := hs.txCounter+1 }
        msg := s.host.msg+1
        started := (hs.txCounter.toNat+1,payload)::s.host.started }) rfl
        (hfits.counted (hs.txCounter+1)) hfrom.1 (hs.txCounter.toNat+1)
      dsimp only at hout
      rw [←h.carries.ready_eq] at hout
      rw [hfits.call_writes h.carries.session_eq henc hp hcount]
      have hasked : calls (outbound++[sealFrame (hostAt key keyId hs.txCounter) chCall
          (UInt16.ofNat (s.host.msg+1)) payload]) = [sealFrame (hostAt key keyId hs.txCounter)
            chCall (UInt16.ofNat (s.host.msg+1)) payload] := by
        rw [calls_append,hcalls]
        rfl
      refine Inv.outcome hout rfl h.books.length_le (.asked hasked hp hnext hreplies) h.fromDevice
        (forall_mem_append.mpr ⟨h.fromHost,forall_mem_singleton.mpr (.inr (.inr hf))⟩)
        (forall_mem_append.mpr ⟨h.carries.whole,forall_mem_singleton.mpr hf.whole⟩)
        h.ours h.carries.down_eq ?_ ?_
      · rw [wires_append,←h.carries.up_eq,append_assoc]
        simp
      · intro r hr
        obtain ⟨payload',channel,reply,msgId,hstarted,hanswer,htext⟩ := h.matched r hr
        exact ⟨payload',channel,reply,msgId,mem_cons_of_mem _ hstarted,hanswer,htext⟩
  · exact h

section

variable (h : Joined key keyId s hs ready inbound outbound)
include h

theorem Joined.readHandshake (hphase : s.host.phase = .handshake reads) : Inv key keyId
    (hostRead s n) := by
  have hfits := h.fits
  have hfrom := forall_mem_append.mp h.fromDevice
  have hsession := h.carries.session_eq
  rw [hphase] at hfits
  obtain rfl : hs = _ := hfits
  obtain ⟨hs',ready',inbound',phase,kept,k,hgreet,hkept,hsub,hfits',hnot⟩ :=
    handshakeRead_outcome hsession h.carries.ready_eq hfrom.2 h.carries.down_eq reads
  have hoffers : ∀ f ∈ List.replicate k (hello keyId 0 1), f = hello keyId 0 1 :=
    fun f hf => eq_of_mem_replicate hf
  have hcalls : calls (List.replicate k (hello keyId 0 1)) = [] :=
    filter_eq_nil_iff.mpr fun f hf => by
      rw [hoffers f hf]
      exact Bool.false_ne_true
  rw [hostRead_greeting n hphase,hgreet]
  refine ⟨hs',ready',inbound',outbound++List.replicate k (hello keyId 0 1),
    ⟨rfl,rfl,hkept,?_,?_⟩,hfits',h.ours,fun f hf => h.fromDevice f (hsub.subset hf),?_,
    .between hnot h.books.length_le fun hsame => ?_,h.matched⟩
  · rw [wires_append,←h.carries.up_eq,append_assoc]
  · exact forall_mem_append.mpr ⟨h.carries.whole,fun f hf => by
      rw [hoffers f hf]
      exact hello_whole keyId 0 1⟩
  · exact forall_mem_append.mpr ⟨h.fromHost,fun f hf => .inl (hoffers f hf)⟩
  · obtain ⟨hnone,hreplies⟩ := h.books.clear (by simp [hphase]) hsame
    rw [calls_append,hnone,hcalls]
    exact ⟨rfl,replies_eq_nil hsub hreplies⟩

/-- It runs out, waits on, or looks at the frames that are whole. -/
theorem Joined.readCall (hphase : s.host.phase = .call counter reads) : Inv key keyId (hostRead
    s n) := by
  have hfits := h.fits
  have hfrom := forall_mem_append.mp h.fromDevice
  rw [hphase] at hfits
  obtain ⟨hon,rfl⟩ := hfits
  have hbooks := h.books
  cases hbooks with
  | between hnot => exact absurd hphase (hnot counter reads)
  | @waiting counter' reads' payload older hcall hstarted hlength hunderway =>
    obtain ⟨rfl,rfl⟩ := Phase.call.inj (hcall.symm.trans hphase)
    have hmore : s.host.returned.length < s.host.started.length := by
      rw [hstarted,length_cons]
      omega
    rw [hostRead_calling hphase]
    rcases nextFrame_wires (fun f hf => (hfrom.2 f hf).whole) h.carries.down_eq reads' (min n 64)
      with ⟨kept,hkept,hnext | hnext⟩ | ⟨g,gs,rest,kept,rfl,hkept,hnext⟩
    · rw [callRead,hnext]
      exact ⟨hs,[],inbound,outbound,⟨h.carries.session_eq,h.carries.ready_eq,hkept,
        h.carries.up_eq,h.carries.whole⟩,hon,h.ours,h.fromDevice,h.fromHost,
        .between (by simp) hmore.le fun hsame => absurd hsame hmore.ne',h.matched⟩
    · rw [callRead,hnext]
      exact ⟨hs,[],inbound,outbound,⟨h.carries.session_eq,h.carries.ready_eq,hkept,
        h.carries.up_eq,h.carries.whole⟩,⟨hon,rfl⟩,h.ours,h.fromDevice,h.fromHost,
        .waiting rfl hstarted hlength hunderway,h.matched⟩
    · have hout := answer_outcome (l:={ s.host with stream := kept }) h.carries.session_eq hon
        (forall_mem_append.mp hfrom.2).1 counter'
      rw [callRead,hnext]
      exact Inv.outcome hout hstarted hlength hunderway h.fromDevice h.fromHost h.carries.whole
        h.ours hkept h.carries.up_eq h.matched

end

theorem Inv.read (h : Inv key keyId s) (n : ℕ) : Inv key keyId (step e sh s (.read n)) := by
  rw [step]
  obtain ⟨hs,ready,inbound,outbound,h⟩ := h
  cases hphase : s.host.phase with
  | idle =>
    rw [hostRead_still (.inl hphase)]
    exact ⟨hs,ready,inbound,outbound,h⟩
  | failed =>
    rw [hostRead_still (.inr hphase)]
    exact ⟨hs,ready,inbound,outbound,h⟩
  | handshake reads => exact h.readHandshake hphase
  | call counter reads => exact h.readCall hphase

theorem Inv.step (h : Inv key keyId s) (ho : Patient s op) : Inv key keyId (step e sh s op) := by
  cases op with
  | read n => exact h.read n
  | call c => exact h.call ho
  | sendTty data => exact h.sendTty data
  | takeTty n => exact h.takeTty n
  | poll n => exact h.poll n
  | deviceRx n cap => exact h.deviceRx ho
  | devicePoll nowMs cap => exact h.devicePoll nowMs cap

end

/-- In every run of patient steps, every text that `call` returns is that of its own reply. -/
theorem patient_calls_matched (e : Env ω) (sh : Shell (Device ω)) (key : Block) (keyId : UInt8)
    (world : ω) (ops : List Op)
    (h : Runs.Each (step e sh) Patient (start key keyId world) ops) :
    Matched (Runs.after (step e sh) (start key keyId world) ops) := by
  have hinv := Runs.invariant (I:=Inv key keyId) (fun _ _ hinv ho => hinv.step ho)
    (inv_start key keyId world) h
  obtain ⟨hs,ready,inbound,outbound,hjoined⟩ := hinv
  exact hjoined.matched

section

theorem onWire_call_reply {e : Env ω} (sh : Shell (Device ω)) (tx : Tx) {c : Core ω} {n : ℕ}
    {k : UInt64} (h : OnSession key keyId c.session n)
    (hnew : ¬(k+1 = 0 ∨ k+1 ≤ c.session.rxCounter)) (msgId : UInt16) {pt : Bytes}
    (hp : pt.length ≤ linkMaxPayload-24) {channel : UInt8} {reply : Bytes}
    (hr : (linkDispatchCall (handlers e) pt linkMaxPayload c.device).2 = some (channel,reply))
    (hfit : reply.length ≤ linkMaxPayload-24) (hroom : tx.out.length+(35+reply.length) ≤ tx.cap) :
    ∃ c', onWire e sh (c,tx) (wireOf (sealFrame (hostAt key keyId k) chCall msgId pt)) =
        ((c',⟨tx.out++wireOf (sealFrame (sessionAt key keyId n) channel (c.msgId+1) reply),
          tx.cap⟩),true) ∧
      dispatched e c (wireOf (sealFrame (hostAt key keyId k) chCall msgId pt)) =
        some ((k+1).toNat,pt,some (channel,reply)) := by
  have hopened : (linkSessionOpen c.session (sealFrame (hostAt key keyId k) chCall msgId pt)).2 =
      some (Frame.ofBody linkVersion 0 chCall msgId pt) := by
    have hopen := linkSessionOpen_sealFrame (hostAt key keyId k) chCall msgId h.key_eq h.keyId_eq
      h.session_eq (by rw [h.txDir_eq]; rfl) h.isOpen_eq hp
    rw [hopen.trans (if_neg hnew)]
  rcases onWire_hostSealed e sh (ours_of_onSession h) tx hp rfl with ⟨hnone,-⟩ | ⟨r,-,-,hres⟩
  · exact absurd (hopened.symm.trans hnone) (by simp)
  · obtain ⟨c',hcall,-⟩ := onCall_sealed (h.moved r) tx
      (c:={ c with session := { c.session with rxCounter := r } }) hr hfit
    have hlength : (wireOf (sealFrame (sessionAt key keyId n) channel (c.msgId+1) reply)).length =
        35+reply.length := sealWire_length (sessionAt key keyId n) channel (c.msgId+1) hfit
    rw [←hlength] at hroom
    refine ⟨c',?_,by rw [dispatched_call e hp hopened,hr]⟩
    rw [hres,onPlain_call e sh tx msgId hp,hcall,txAppend_some hroom]
    rfl

theorem step_read_timeout (e : Env ω) (sh : Shell (Device ω))
    (hphase : s.host.phase = .call counter reads) :
    step e sh s (.read 0) = { s with host := { s.host with phase := .idle } } := by
  have htake : s.down.take (min 0 64) = [] := by simp
  have hdrop : s.down.drop (min 0 64) = s.down := by simp
  rw [step,hostRead,hphase,htake,hdrop]
  rfl

variable (key keyId)

def firstCall : Frame := sealFrame (hostAt key keyId 0) chCall 11 keyUpCall

def firstReply : Frame := sealFrame (sessionAt key keyId 1) chResult 3 [1,1,0]

def asked (c : Core ω) : System ω where
  host :=
    { session := Host.ofSession (hostAt key keyId 1)
      stream := []
      ready := []
      msg := 11
      phase := .call 1 0
      refused := []
      started := [(1,keyUpCall)]
      returned := [] }
  device := ⟨Stream.empty,c⟩
  up := wireOf (firstCall key keyId)
  down := wireOf (prompt key keyId 2)++[]
  answers := []

def askRun : List Op := [.deviceRx 21 1024,.read 21,.call (.key (text "up") true)]

theorem after_asked (sh : Shell (Device ω)) (world : ω) : ∃ c, Runs.after (step e sh) (start key
    keyId world) askRun = asked key keyId c ∧ OnSession key keyId c.session 1 ∧
    c.session.rxCounter = 0 ∧ c.msgId = 2 := by
  obtain ⟨c,hstep,hon,hrx,-,hmsg⟩ := step_first_hello key keyId world e sh
  have hhost : HostOn key keyId (hostAt key keyId 0) := ⟨rfl,rfl,rfl,rfl,rfl⟩
  have hzero : (0 : UInt64).toNat+1 < 2^64 := by decide
  refine ⟨c,?_,hon,hrx,hmsg⟩
  rw [askRun,Runs.after_cons,hstep,Runs.after_cons,step_read_hello
    (linkSessionInit (some key) keyId dirHost) rfl rfl rfl rfl rfl rfl]
  rw [Runs.after_cons,step_call_idle hhost rfl rfl rfl encodeCall_keyUp (by decide) hzero]
  rfl

variable {key keyId}

theorem step_first_call {s : System Unit} {c : Core Unit} (hdevice : s.device = ⟨Stream.empty,c⟩)
    (hup : s.up = wireOf (firstCall key keyId)) (hon : OnSession key keyId c.session 1)
    (hrx : c.session.rxCounter = 0) (hmsg : c.msgId = 2) :
    ∃ c', step quietEnv quietShell s (.deviceRx 45 1024) =
      { s with
        device := ⟨Stream.empty,c'⟩
        up := []
        down := s.down++wireOf (firstReply key keyId)
        answers := s.answers++[(1,keyUpCall,some (chResult,[1,1,0]))] } := by
  have hp : keyUpCall.length ≤ linkMaxPayload-24 := by decide
  have hnew : ¬((0 : UInt64)+1 = 0 ∨ 0+1 ≤ c.session.rxCounter) := by
    rw [hrx]
    decide
  obtain ⟨c',hwire,hdispatched⟩ := onWire_call_reply quietShell ⟨[],1024⟩ hon hnew 11 hp
    (dispatch_keyUpCall (d:=c.device)).2 (by decide) (by decide)
  have hlength : (wireOf (firstCall key keyId)).length = 45 := sealWire_length _ chCall 11 hp
  have hanswer : dispatched quietEnv s.device.core (wireOf (firstCall key keyId)) =
      some (1,keyUpCall,some (chResult,[1,1,0])) := by
    rw [hdevice]
    exact hdispatched
  rw [hmsg] at hwire
  refine ⟨c',?_⟩
  rw [step_deviceRx_frame (whole_sealFrame chCall 11 hp) hlength (by rw [hdevice])
    (hup.trans (append_nil _).symm) (by rw [hdevice]; exact hwire)]
  have hlist := congrArg Option.toList hanswer
  rw [firstCall] at hlist
  rw [hlist]
  rfl

theorem reads_first_reply (key : Block) (keyId : UInt8) {e : Env ω} {sh : Shell (Device ω)}
    {s : System ω} {k : UInt64} (hsession : s.host.session = Host.ofSession (hostAt key keyId k))
    (hphase : s.host.phase = .call counter reads) (hstream : s.host.stream = [])
    (hdown : s.down = wireOf (prompt key keyId 2)++(wireOf (firstReply key keyId)++[])) :
    (Runs.after (step e sh) s [.read 44,.read 38]).host.returned = (counter,.ok)::s.host.returned ∧
      (Runs.after (step e sh) s [.read 44,.read 38]).answers = s.answers := by
  have hon : HostOn key keyId (hostAt key keyId k) := ⟨rfl,rfl,rfl,rfl,rfl⟩
  have hzero : Fresh (hostAt key keyId k) 0 := by
    change ¬((UInt64.ofNat 0+1 = 0) ∨ UInt64.ofNat 0+1 ≤ 0)
    decide
  have hone : Fresh { hostAt key keyId k with rxCounter := UInt64.ofNat 0+1 } 1 := by
    change ¬((UInt64.ofNat 1+1 = 0) ∨ UInt64.ofNat 1+1 ≤ UInt64.ofNat 0+1)
    decide
  obtain ⟨⟨session,stream,ready,msg,phase,refused,started,returned⟩,device,up,down,answers⟩ := s
  obtain ⟨rfl,rfl,rfl,rfl⟩ : session = _ ∧ phase = _ ∧ stream = _ ∧ down = _ :=
    ⟨hsession,hphase,hstream,hdown⟩
  rw [Runs.after_cons,step_read_tty hon rfl rfl rfl hzero rfl
    (show 35+(text "ardubot$ ").length = 44 by decide) (by decide)]
  rw [Runs.after_cons,step_read_reply (hon.moved _) rfl rfl rfl hone (.inl rfl) rfl
    (show 35+List.length [1,1,0] = 38 by decide) (by decide)]
  exact ⟨rfl,rfl⟩

end

def keyRun : List Op := askRun++[Op.deviceRx 45 1024,Op.read 44,Op.read 38]

theorem keyRun_returned : (Runs.after (step quietEnv quietShell) (start key keyId ())
    keyRun).host.returned = [(1,.ok)] := by
  obtain ⟨c,hasked,hon,hrx,hmsg⟩ := after_asked key keyId quietShell ()
  obtain ⟨c',hcall⟩ := step_first_call (s:=asked key keyId c) rfl rfl hon hrx hmsg
  rw [keyRun,Runs.after_append,hasked,Runs.after_cons,hcall]
  refine (reads_first_reply key keyId rfl rfl rfl ?_).1
  simp [asked]

theorem keyRun_patient : Runs.Each (step quietEnv quietShell) Patient (start key keyId ())
    keyRun := by
  obtain ⟨c,hasked,-⟩ := after_asked key keyId (e:=quietEnv) quietShell ()
  obtain ⟨hfit,-⟩ := first_hello_fits key keyId () quietEnv quietShell
  obtain ⟨c₀,hstep,-⟩ := step_first_hello key keyId () quietEnv quietShell
  rw [keyRun,Runs.each_append,hasked]
  refine ⟨⟨hfit,trivial,.inl ?_,trivial⟩,?_,trivial,trivial,trivial⟩
  · rw [hstep,step_read_hello (linkSessionInit (some key) keyId dirHost) rfl rfl rfl rfl rfl rfl]
    rfl
  · have htake := length_take_le 45 (wireOf (firstCall key keyId))
    change 0+(take 45 (wireOf (firstCall key keyId))).length ≤ linkMaxFrame
    rw [zero_add]
    exact htake.trans (by decide)

theorem patient_calls_matched_key :
    (Runs.after (step quietEnv quietShell) (start (Vector.replicate 16 0) 1 ()) keyRun).host.returned =
      [(1,.ok)] ∧
    Matched (Runs.after (step quietEnv quietShell) (start (Vector.replicate 16 0) 1 ()) keyRun) :=
  ⟨keyRun_returned,patient_calls_matched quietEnv quietShell _ 1 () _ keyRun_patient⟩

/-- The first call times out before it arrives, and another follows. -/
def lateRun : List Op :=
  askRun++[Op.read 0,Op.deviceRx 45 1024,Op.call (.key (text "no") true),Op.read 44,Op.read 38]

theorem encodeCall_keyNo : encodeCall (.key (text "no") true) =
    some [tagMethod,1,methodKey,tagText,2,110,111,tagPressed,1,1] := by decide +kernel

/-- The second call, not yet arrived, gets the first one's reply. -/
theorem lateRun_returned : (Runs.after (step quietEnv quietShell) (start key keyId ())
    lateRun).host.returned = [(2,.ok)] ∧ (Runs.after (step quietEnv quietShell) (start key keyId
    ()) lateRun).answers = [(1,keyUpCall,some (chResult,[1,1,0]))] := by
  obtain ⟨c,hasked,hon,hrx,hmsg⟩ := after_asked key keyId (e:=quietEnv) quietShell ()
  have htimeout := step_read_timeout quietEnv quietShell (s:=asked key keyId c) rfl
  obtain ⟨c',hcall⟩ := step_first_call (s:={ asked key keyId c with
    host := { (asked key keyId c).host with phase := .idle } }) rfl rfl hon hrx hmsg
  have hhost : HostOn key keyId (hostAt key keyId 1) := ⟨rfl,rfl,rfl,rfl,rfl⟩
  have hone : (1 : UInt64).toNat+1 < 2^64 := by decide
  rw [lateRun,Runs.after_append,hasked,Runs.after_cons,htimeout,Runs.after_cons,hcall,
    Runs.after_cons,step_call_idle hhost rfl rfl rfl encodeCall_keyNo (by decide) hone]
  refine reads_first_reply key keyId (k:=2) rfl rfl rfl ?_
  simp [asked]

/-- The reply of a call that timed out is taken for that of the next. -/
theorem late_reply_mismatched :
    ¬Matched (Runs.after (step quietEnv quietShell) (start (Vector.replicate 16 0) 1 ()) lateRun) := by
  obtain ⟨hreturned,hanswers⟩ := lateRun_returned
  intro h
  rw [Matched,hreturned,hanswers] at h
  obtain ⟨payload,channel,reply,msgId,-,hanswer,-⟩ := h (2,.ok) (mem_singleton.mpr rfl)
  have hcounter : 2 = 1 := congrArg Prod.fst (mem_singleton.mp hanswer)
  omega

end TinyDeviceOs.LinkReplyRuns
