import TinyDeviceOs.LinkSystem

/-! Repeated Hellos. The device answers every one and starts its counters over, while the host
stops listening at the first answer. -/
namespace TinyDeviceOs.LinkHandshake

open List LittleEndian LinkFrame LinkCrypto LinkSession LinkStream LinkDispatch TtyService
  LinkBridge
  BridgeRx BridgeSends FramePipe HostCodec HostCalls HostSession HostLink LinkSystem
open BridgeNonces (quietEnv quietShell)

variable {ω : Type} {key : Block} {keyId : UInt8} {hs : Session} {n : ℕ}

section

/-- The host can open the frames in turn, up to the device's counter. -/
structure Linked (key : Block) (keyId : UInt8) (hs : Session) (fs : List Frame) (n : ℕ) : Prop where
  host : HostOn key keyId hs
  seals : Seals key keyId Anything hs.rxCounter.toNat fs n
  bound : n < 2^64

variable {f : Frame} {fs rest : List Frame}

theorem Linked.opens (h : Linked key keyId hs (f::fs) n) :
    ∃ hs' plain, openFrame (Host.ofSession hs) (seen f) = (Host.ofSession hs',.ok plain) ∧
      Linked key keyId hs' fs n ∧ f.flags &&& flagEncrypted ≠ 0 := by
  obtain ⟨k,channel,msgId,pt,hk,hp,-,rfl,hrest⟩ := h.seals.head
  have hle := hrest.le
  have hbound := h.bound
  have hnext : (UInt64.ofNat k+1).toNat = k+1 := by
    rw [UInt64.toNat_add,UInt64.toNat_ofNat',UInt64.toNat_one]
    omega
  have hfresh : Fresh hs k := by
    rintro (h0 | hle)
    · rw [←UInt64.toNat_inj,hnext,UInt64.toNat_zero] at h0
      omega
    · rw [UInt64.le_iff_toNat_le,hnext] at hle
      omega
  refine ⟨_,_,h.host.accepts channel msgId hp hfresh,⟨h.host.moved _,?_,hbound⟩,?_⟩
  · change Seals key keyId Anything (UInt64.ofNat k+1).toNat fs n
    rwa [hnext]
  · change flagEncrypted &&& flagEncrypted ≠ 0
    decide

theorem answer_linked (hl : l.session = Host.ofSession hs)
    (h : Linked key keyId hs (fs++rest) n) :
    ∃ hs' gs phase returned, answer l counter (fs.map seen) =
        { l with
          session := Host.ofSession hs'
          ready := gs.map seen
          phase := phase
          returned := returned } ∧
      Linked key keyId hs' (gs++rest) n ∧ Past phase gs := by
  induction fs generalizing hs l with
  | nil => exact ⟨hs,[],.call counter 0,l.returned,by rw [←hl]; rfl,h,rfl⟩
  | cons f fs ih =>
    obtain ⟨hs',plain,hopen,hrest,-⟩ := h.opens
    rw [map_cons,answer,hl,hopen]
    dsimp only
    split_ifs
    · exact ⟨hs',fs,.idle,_,rfl,hrest,trivial⟩
    · obtain ⟨hs'',gs,phase,returned,hanswer,hgs⟩ := ih (l:={ l with
        session := Host.ofSession hs' }) rfl hrest
      exact ⟨hs'',gs,phase,returned,hanswer,hgs⟩

theorem absorb_linked (h : Linked key keyId hs (fs++rest) n) :
    ∃ hs' results, absorb (Host.ofSession hs) (fs.map seen) = (Host.ofSession hs',results) ∧
      refusals results = [] ∧ Linked key keyId hs' rest n := by
  induction fs generalizing hs with
  | nil => exact ⟨hs,[],rfl,rfl,h⟩
  | cons f fs ih =>
    obtain ⟨hs',plain,hopen,hrest,hflags⟩ := h.opens
    obtain ⟨hs'',results,habsorb,hnone,hlinked⟩ := ih hrest
    have hkind : ¬((seen f).flags &&& flagEncrypted.toNat = 0 ∨
        (Host.ofSession hs).isOpen = false) := by
      rintro (hzero | hclosed)
      · have hand : (f.flags &&& flagEncrypted).toNat = 0 := hzero
        exact hflags (UInt8.toNat_inj.mp hand)
      · have hopened : hs.isOpen = false := hclosed
        rw [h.host.isOpen_eq] at hopened
        cases hopened
    refine ⟨hs'',(seen f,.ok plain)::results,?_,?_,hlinked⟩
    · rw [map_cons,absorb,if_neg hkind,hopen,habsorb]
    · rw [refusals,filterMap_cons_none rfl]
      exact hnone

end

variable {fs : List Frame}

section

/-- The Hello is on its way, its answer is, or the host has it. -/
inductive Stage (key : Block) (keyId : UInt8) (hs : Session) (c : Core ω) :
    Phase → List Frame → List Frame → List Frame → Prop
  | offered (reads : ℕ) (hhost : hs = linkSessionInit (some key) keyId dirHost)
    (hdevice : Holds key keyId c.session) (htty : c.tty = ttyServiceReset) :
    Stage key keyId hs c (.handshake reads) [] [] [hello keyId 0 1]
  | greeted (reads : ℕ) {msgId : UInt16} {fs : List Frame} {n : ℕ}
    (hhost : hs = linkSessionInit (some key) keyId dirHost)
    (hdevice : OnSession key keyId c.session n) (hseals : Seals key keyId Anything 0 fs n)
    (hbound : n < 2^64) :
    Stage key keyId hs c (.handshake reads) [] (hello keyId 1 msgId::fs) []
  | linked {phase : Phase} {ready inbound outbound : List Frame} {n : ℕ}
    (hphase : Past phase ready) (hdevice : OnSession key keyId c.session n)
    (hlinked : Linked key keyId hs (ready++inbound) n) (hout : ∀ f ∈ outbound, ¬isHello f) :
    Stage key keyId hs c phase ready inbound outbound

variable {c : Core ω} {phase : Phase} {ready inbound outbound : List Frame}

theorem Linked.whole (h : Linked key keyId hs (ready++inbound) n) : ∀ f ∈ inbound, Whole f :=
  fun f hf => h.seals.whole f (mem_append_right _ hf)

theorem Stage.whole (h : Stage key keyId hs c phase ready inbound outbound) :
    ∀ f ∈ inbound, Whole f := by
  cases h with
  | offered => simp
  | greeted _ _ _ hseals _ =>
    exact forall_mem_cons.mpr ⟨hello_whole _ _ _,hseals.whole⟩
  | linked _ _ hlinked _ => exact hlinked.whole

theorem Linked.extend (h : Linked key keyId hs fs n) (hg : Seals key keyId Anything n gs m) (hm :
    m < 2^64) : Linked key keyId hs (fs++gs) m :=
  ⟨h.host,h.seals.append hg,hm⟩

def Passes (key : Block) (keyId : UInt8) (hs : Session) (phase : Phase)
    (ready inbound : List Frame) : Frame → List Frame → (Core ω × Tx) × Bool → Prop :=
  Delivered fun c out => Stage key keyId hs c phase ready (inbound++out)

variable {tx : Tx} {out gs : List Frame} {f : Frame} (e : Env ω) (sh : Shell (Device ω))

theorem passes_hello (hout : tx.out = []) (hhost : hs = linkSessionInit (some key) keyId
    dirHost) (hdevice : Holds key keyId c.session) (htty : c.tty = ttyServiceReset) : Passes key
    keyId hs (.handshake reads) [] [] (hello keyId 0 1) [] (onWire e sh (c,tx) (wireOf (hello
    keyId 0 1))) := by
  rcases onWire_hello e sh hdevice tx 0 1 with hfail | ⟨c',tx',fs,m,hok,hseals,hm,hout',hon⟩
  · right
    rw [hfail]
    exact ⟨rfl,.offered reads hhost hdevice.restarted.holds htty⟩
  · left
    rw [hok]
    refine ⟨rfl,hello keyId 1 (c.msgId+1)::fs,?_,
      .greeted reads hhost hon (hseals.mono fun _ _ _ => trivial) (by omega)⟩
    rw [hout',hout,nil_append]

section

variable (hf : Whole f) (hout : tx.out = wires out) (hroom : c.session.txCounter.toNat+11 < 2^64)
include hf hout hroom

theorem passes_linked (hphase : Past phase ready) (hdevice : OnSession key keyId c.session n)
    (hlinked : Linked key keyId hs (ready++(inbound++out)) n) (houtbound : ∀ g ∈ f::gs, ¬isHello
    g) : Passes key keyId hs phase ready inbound f gs (onWire e sh (c,tx) (wireOf f)) := by
  rw [forall_mem_cons] at houtbound
  have hg : ¬Greets (wireOf f) := by
    rintro ⟨k,g,hd,hh⟩
    rw [hf.decode] at hd
    obtain ⟨-,rfl⟩ := Prod.mk.inj (Option.some.inj hd)
    exact houtbound.1 hh
  obtain ⟨fs,m,hposts⟩ := onWire_posts e sh hdevice tx hg
  have hle := hposts.le
  have hcount := hdevice.counter_toNat hlinked.bound
  have hall := hlinked.extend hposts.seals (by omega)
  cases hok : (LinkBridge.onWire e sh (c,tx) (wireOf f)).2 with
  | true =>
    refine .inl ⟨hok,out++fs,?_,.linked hphase hposts.session ?_ houtbound.2⟩
    · rw [hposts.out_eq,hout,wires_append]
    · simpa only [append_assoc] using hall
  | false =>
    have hmore : Seals key keyId Anything hs.rxCounter.toNat ((ready++inbound)++(out++fs)) m := by
      simpa only [append_assoc] using hall.seals
    refine .inr ⟨hok,.linked hphase hposts.session ⟨hall.host,?_,hall.bound⟩
      (forall_mem_cons.mpr houtbound)⟩
    rw [append_nil]
    exact hmore.take

/-- With what the device has written in this call so far. -/
theorem Stage.onWire (h : Stage key keyId hs c phase ready (inbound++out) (f::gs)) : Passes key
    keyId hs phase ready inbound f gs (onWire e sh (c,tx) (wireOf f)) := by
  generalize hin : inbound++out = fs at h
  generalize hpipe : f::gs = us at h
  cases h with
  | offered reads hhost hdevice htty =>
    obtain ⟨rfl,rfl⟩ := append_eq_nil_iff.mp hin
    obtain ⟨rfl,rfl⟩ := cons.inj hpipe
    exact passes_hello e sh (hout.trans wires_nil) hhost hdevice htty
  | greeted => simp at hpipe
  | linked hphase hdevice hlinked houtbound =>
    subst hpipe hin
    exact passes_linked e sh hf hout hroom hphase hdevice hlinked houtbound

end

end

variable {inbound : List Frame}

section

variable (e : Env ω) (sh : Shell (Device ω))

/-- Hello is not offered again, the device's window and counter have room, and `poll` finds no
frame ready. -/
def Orderly (s : System ω) : Op → Prop
  | .read n => (step e sh s (.read n)).up = s.up
  | .poll _ => s.host.ready = []
  | .deviceRx n cap => s.device.stream.buf.length+(s.up.take n).length ≤ linkMaxFrame ∧
      ∀ d ∈ rxDeliveries e sh s.device (s.up.take n) true cap,
        d.1.1.session.txCounter.toNat+11 < 2^64
  | .devicePoll _ _ => s.device.core.session.txCounter.toNat+11 < 2^64
  | _ => True

def Inv (key : Block) (keyId : UInt8) (s : System ω) : Prop :=
  s.host.refused = [] ∧ ∃ hs ready inbound outbound, Carries s hs ready inbound outbound ∧
    Stage key keyId hs s.device.core s.host.phase ready inbound outbound

variable {e sh} {s : System ω}

theorem inv_start (key : Block) (keyId : UInt8) (world : ω) :
    Inv key keyId (start key keyId world) := by
  refine ⟨rfl,linkSessionInit (some key) keyId dirHost,[],[],[hello keyId 0 1],
    ⟨rfl,rfl,rfl,?_,by simpa using hello_whole keyId 0 1⟩,.offered 0 rfl ⟨rfl,rfl,rfl⟩ rfl⟩
  change [] ++ offer _ = _
  rw [offer_eq]
  simp

theorem Inv.deviceRx (h : Inv key keyId s) (ho : Orderly e sh s (.deviceRx n cap)) : Inv key
    keyId (step e sh s (.deviceRx n cap)) := by
  obtain ⟨href,hs,ready,inbound,outbound,hc,hstage⟩ := h
  obtain ⟨gs,out,hgs,hup,hsent,hstage'⟩ := rx_frames cap
    (J:=fun c out gs => Stage key keyId hs c s.host.phase ready (inbound++out) gs) rfl
    hc.whole hc.up_eq ho.1
    (fun c tx out f gs hd hf hout hJ => hJ.onWire e sh hf hout (ho.2 _ hd))
    (by simpa using hstage)
  refine ⟨href,hs,ready,inbound++out,gs,⟨hc.session_eq,hc.ready_eq,?_,hup,hgs⟩,hstage'⟩
  change s.host.stream++(s.down++sent _) = _
  rw [hsent,←append_assoc,hc.down_eq,wires_append]

theorem Inv.devicePoll (h : Inv key keyId s) (ho : Orderly e sh s (.devicePoll nowMs cap)) : Inv
    key keyId (step e sh s (.devicePoll nowMs cap)) := by
  obtain ⟨href,hs,ready,inbound,outbound,hc,hstage⟩ := h
  have hroom : s.device.core.session.txCounter.toNat+11 < 2^64 := ho
  have hsilent (hpoll : linkBridgePoll sh s.device nowMs true cap = ⟨s.device,[],some 0⟩) :
      step e sh s (.devicePoll nowMs cap) = s := by
    simp [step,hpoll,sent]
  have hposted {core : Core ω} {fs : List Frame} (hpoll : linkBridgePoll sh s.device nowMs true cap =
      ⟨⟨s.device.stream,core⟩,wires fs,some (wires fs).length⟩) :
      step e sh s (.devicePoll nowMs cap) =
        { s with device := ⟨s.device.stream,core⟩, down := s.down++wires fs } := by
    simp [step,hpoll,sent]
  have hdown (fs : List Frame) : s.host.stream++(s.down++wires fs) = wires (inbound++fs) := by
    rw [←append_assoc,hc.down_eq,wires_append]
  generalize hphase : s.host.phase = phase at hstage
  cases hstage with
  | offered reads hhost hdevice htty =>
    rw [hsilent (poll_quiet sh htty nowMs cap)]
    exact ⟨href,hs,_,_,_,hc,by rw [hphase]; exact .offered reads hhost hdevice htty⟩
  | @greeted reads msgId fs n hhost hdevice hseals hbound =>
    obtain ⟨core,gs,m,hpoll,hg,hm,hon⟩ := poll_posts sh hdevice nowMs cap
    have hcount := hdevice.counter_toNat hbound
    rw [hposted hpoll]
    refine ⟨href,hs,_,_,_,⟨hc.session_eq,hc.ready_eq,hdown gs,hc.up_eq,hc.whole⟩,?_⟩
    dsimp only
    rw [hphase]
    exact .greeted reads hhost hon (hseals.append (hg.mono fun _ _ _ => trivial)) (by omega)
  | @linked _ _ _ _ n hnot hdevice hlinked hout =>
    obtain ⟨core,gs,m,hpoll,hg,hm,hon⟩ := poll_posts sh hdevice nowMs cap
    have hcount := hdevice.counter_toNat hlinked.bound
    rw [hposted hpoll]
    refine ⟨href,hs,_,_,_,⟨hc.session_eq,hc.ready_eq,hdown gs,hc.up_eq,hc.whole⟩,?_⟩
    dsimp only
    rw [hphase]
    refine .linked hnot hon ?_ hout
    rw [←append_assoc]
    exact hlinked.extend (hg.mono fun _ _ _ => trivial) (by omega)

/-- Only the session, the ready frames and the phase change, and sealed frames are written. -/
theorem Inv.after (ready : List Frame) {hs : Session} {outbound : List Frame} {n : ℕ}
    {t : System ω} (href : t.host.refused = []) (hc : Carries t hs ready inbound outbound)
    (hphase : Past t.host.phase ready)
    (hdevice : OnSession key keyId t.device.core.session n)
    (hlinked : Linked key keyId hs (ready++inbound) n) (hout : ∀ f ∈ outbound, ¬isHello f) :
    Inv key keyId t :=
  ⟨href,hs,ready,inbound,outbound,hc,.linked hphase hdevice hlinked hout⟩

theorem Linked.counted (h : Linked key keyId hs fs n) (k : UInt64) :
    Linked key keyId { hs with txCounter := k } fs n := ⟨h.host.counted k,h.seals,h.bound⟩

section

variable (h : Inv key keyId s)
include h

theorem Inv.whenIdle (hstep : (∀ fs, Past s.host.phase fs) → ∀ hs ready inbound outbound n,
    s.host.refused = [] → Carries s hs ready inbound outbound →
    OnSession key keyId s.device.core.session n → Linked key keyId hs (ready++inbound) n →
    (∀ f ∈ outbound, ¬isHello f) → Inv key keyId t) :
    Inv key keyId (if s.host.phase = .idle then t else s) := by
  obtain ⟨href,hs,ready,inbound,outbound,hc,hstage⟩ := h
  split_ifs with hidle
  · rw [hidle] at hstage
    cases hstage with
    | linked _ hdevice hlinked hout =>
      exact hstep (fun _ => by rw [hidle]; trivial) _ _ _ _ _ href hc hdevice hlinked hout
  · exact ⟨href,hs,ready,inbound,outbound,hc,hstage⟩

theorem Inv.sendTty (data : Bytes) : Inv key keyId (step e sh s (.sendTty data)) := by
  rw [step]
  refine h.whenIdle fun hpast hs ready inbound outbound n href hc hdevice hlinked hout => ?_
  obtain ⟨k,m,fs,hsend,hfs⟩ := hlinked.host.sendTty hc.session_eq data
  rw [hsend]
  refine Inv.after _ href ⟨rfl,hc.ready_eq,hc.down_eq,?_,?_⟩ (hpast _) hdevice
    (hlinked.counted k) (forall_mem_append.mpr ⟨hout,fun f hf => (hfs f hf).not_isHello⟩)
  · rw [wires_append,←hc.up_eq,append_assoc]
  · exact forall_mem_append.mpr ⟨hc.whole,fun f hf => (hfs f hf).whole⟩

theorem Inv.call (c : HostCall) : Inv key keyId (step e sh s (.call c)) := by
  rw [step]
  refine h.whenIdle fun hpast hs ready inbound outbound n href hc hdevice hlinked hout => ?_
  rcases call_cases hc.session_eq with ⟨k,m,hcall⟩ | ⟨payload,henc,hp,hcount⟩
  · rw [hcall]
    refine Inv.after _ href ⟨rfl,hc.ready_eq,hc.down_eq,?_,hc.whole⟩ (hpast _) hdevice
      (hlinked.counted k) hout
    rw [append_nil]
    exact hc.up_eq
  · have hf : HostSealed key keyId chCall
        (sealFrame (hostAt key keyId hs.txCounter) chCall (UInt16.ofNat (s.host.msg+1))
          payload) := ⟨_,_,_,hp,rfl⟩
    obtain ⟨hs',gs,phase,returned,hanswer,hrest,hphase⟩ := answer_linked (l:={ s.host with
      session := Host.ofSession { hs with txCounter := hs.txCounter+1 }
      msg := s.host.msg+1
      started := (hs.txCounter.toNat+1,payload)::s.host.started }) rfl
      (hlinked.counted (hs.txCounter+1))
    dsimp only at hanswer
    rw [←hc.ready_eq] at hanswer
    rw [hlinked.host.call_writes hc.session_eq henc hp hcount,hanswer]
    refine Inv.after _ href ⟨rfl,rfl,hc.down_eq,?_,?_⟩ hphase hdevice hrest
      (forall_mem_append.mpr ⟨hout,forall_mem_singleton.mpr hf.not_isHello⟩)
    · rw [wires_append,←hc.up_eq,append_assoc]
      simp
    · exact forall_mem_append.mpr ⟨hc.whole,forall_mem_singleton.mpr hf.whole⟩

theorem Inv.takeTty (n : ℕ) : Inv key keyId (step e sh s (.takeTty n)) := by
  rw [step]
  refine h.whenIdle fun hpast hs ready inbound outbound m href hc hdevice hlinked hout => ?_
  have hdown := hc.down_eq
  rw [←take_append_drop (min n 256) s.down,←append_assoc] at hdown
  obtain ⟨gs,rest,rfl,hfound,hkept⟩ := extractFrames_wires hlinked.whole hdown
  obtain ⟨hs₁,queued,hqueued,hnone₁,hlinked₁⟩ := absorb_linked hlinked
  obtain ⟨hs₂,fresh,hfresh,hnone₂,hlinked₂⟩ := absorb_linked hlinked₁
  rw [HostLink.takeTty,hc.session_eq,hc.ready_eq,hqueued,hfound]
  dsimp only
  rw [hfresh]
  refine Inv.after [] ?_ ⟨rfl,rfl,hkept,hc.up_eq,hc.whole⟩ (hpast _) hdevice hlinked₂ hout
  dsimp only
  rw [refusals,filterMap_append,←refusals,←refusals,hnone₁,hnone₂,href]
  rfl

theorem Inv.poll (ho : Orderly e sh s (.poll n)) : Inv key keyId (step e sh s (.poll n)) := by
  rw [step]
  refine h.whenIdle fun hpast hs ready inbound outbound m href hc hdevice hlinked hout => ?_
  obtain rfl : ready = [] := by
    have hready : s.host.ready = [] := ho
    rw [hc.ready_eq] at hready
    exact map_eq_nil_iff.mp hready
  have hdown := hc.down_eq
  rw [←take_append_drop (min n 256) s.down,←append_assoc] at hdown
  rw [HostLink.poll]
  split_ifs with hchunk
  · rw [hchunk,append_nil] at hdown
    exact Inv.after _ href ⟨hc.session_eq,hc.ready_eq,hdown,hc.up_eq,hc.whole⟩ (hpast _)
      hdevice hlinked hout
  · obtain ⟨gs,rest,rfl,hfound,hkept⟩ := extractFrames_wires hlinked.whole hdown
    rw [nil_append] at hlinked
    obtain ⟨hs₁,fresh,hfresh,hnone,hlinked₁⟩ := absorb_linked hlinked
    dsimp only
    rw [hc.session_eq,hfound,hfresh]
    refine Inv.after [] ?_ ⟨rfl,hc.ready_eq,hkept,hc.up_eq,hc.whole⟩ (hpast _) hdevice
      hlinked₁ hout
    dsimp only
    rw [hnone,href]
    rfl

end

theorem offer_ne_nil (s : Host) : offer s ≠ [] := by
  have hl := hello_length s.keyId 0 1
  rw [←offer_eq] at hl
  exact ne_nil_of_length_pos (by omega)

theorem hostRead_handshake (hin : ∀ f ∈ inbound, Whole f)
    (hphase : s.host.phase = .handshake reads) (hdown : s.host.stream++s.down = wires inbound)
    (hup : (hostRead s n).up = s.up) :
    (∃ kept, kept++s.down.drop (min n 64) = wires inbound ∧ hostRead s n =
      { s with
        host := { s.host with stream := kept, phase := .handshake (reads+1) }
        down := s.down.drop (min n 64) }) ∨
    ∃ g gs rest kept, inbound = g::gs++rest ∧ kept++s.down.drop (min n 64) = wires rest ∧
      hostRead s n =
        { s with
          host := (greet { s.host with stream := kept } ((g::gs).map seen)).1
          up := s.up++(greet { s.host with stream := kept } ((g::gs).map seen)).2
          down := s.down.drop (min n 64) } := by
  rw [hostRead_greeting n hphase] at hup ⊢
  rcases nextFrame_wires hin hdown reads (min n 64) with
    ⟨kept,hkept,hnext | hnext⟩ | ⟨g,gs,rest,kept,hsplit,hkept,hnext⟩
  · rw [handshakeRead,hnext] at hup
    exact absurd (append_right_eq_self.mp hup) (offer_ne_nil _)
  · refine .inl ⟨kept,hkept,?_⟩
    rw [handshakeRead,hnext]
    simp
  · refine .inr ⟨g,gs,rest,kept,hsplit,hkept,?_⟩
    rw [handshakeRead,hnext]
    rfl

section

variable {n m reads : ℕ} {inbound outbound : List Frame}

theorem inv_read_greeted (href : s.host.refused = []) (hc : Carries s hs [] (hello keyId 1
    msgId::fs) []) (hwhole : ∀ f ∈ hello keyId 1 msgId::fs, Whole f) (hphase : s.host.phase =
    .handshake reads) (hhost : hs = linkSessionInit (some key) keyId dirHost) (hdevice :
    OnSession key keyId s.device.core.session m) (hseals : Seals key keyId Anything 0 fs m)
    (hbound : m < 2^64) (hup : (hostRead s n).up = s.up) : Inv key keyId (hostRead s n) := by
  rcases hostRead_handshake hwhole hphase hc.down_eq hup with
    ⟨kept,hkept,hread⟩ | ⟨g,gs,rest,kept,hsplit,hkept,hread⟩
  · rw [hread]
    exact ⟨href,hs,_,_,_,⟨hc.session_eq,hc.ready_eq,hkept,hc.up_eq,hc.whole⟩,
      .greeted (reads+1) hhost hdevice hseals hbound⟩
  · obtain ⟨rfl,rfl⟩ := cons.inj hsplit
    have hid : hs.keyId = keyId := by rw [hhost]; rfl
    have hdir : hs.txDir = dirHost := by rw [hhost]; rfl
    have hkey : hs.key = key := by rw [hhost]; rfl
    rw [hread,map_cons,greet_hello (l:={ s.host with stream := kept }) hc.session_eq hid hdir]
    refine Inv.after gs href ⟨rfl,rfl,hkept,?_,hc.whole⟩ trivial hdevice
      ⟨⟨hkey,hid,rfl,hdir,rfl⟩,by rw [hhost]; exact hseals,hbound⟩ (by simp)
    rw [append_nil]
    exact hc.up_eq

theorem inv_read_call (href : s.host.refused = []) (hc : Carries s hs [] inbound outbound)
    (hwhole : ∀ f ∈ inbound, Whole f) (hphase : s.host.phase = .call counter reads) (hdevice :
    OnSession key keyId s.device.core.session m) (hlinked : Linked key keyId hs inbound m) (hout :
    ∀ f ∈ outbound, ¬isHello f) : Inv key keyId (hostRead s n) := by
  rw [hostRead_calling hphase]
  rcases nextFrame_wires hwhole hc.down_eq reads (min n 64) with
    ⟨kept,hkept,hnext | hnext⟩ | ⟨g,gs,rest,kept,rfl,hkept,hnext⟩
  · rw [callRead,hnext]
    exact Inv.after [] href ⟨hc.session_eq,hc.ready_eq,hkept,hc.up_eq,hc.whole⟩ trivial
      hdevice hlinked hout
  · rw [callRead,hnext]
    exact Inv.after [] href ⟨hc.session_eq,hc.ready_eq,hkept,hc.up_eq,hc.whole⟩ rfl
      hdevice hlinked hout
  · obtain ⟨hs',us,phase,returned,hanswer,hrest,hpast⟩ := answer_linked (l:={ s.host with
      stream := kept }) hc.session_eq hlinked
    rw [callRead,hnext]
    dsimp only at hanswer ⊢
    rw [map_cons] at hanswer
    rw [hanswer]
    exact Inv.after us href ⟨rfl,rfl,hkept,hc.up_eq,hc.whole⟩ hpast hdevice hrest hout

end

theorem Inv.read (h : Inv key keyId s) (ho : Orderly e sh s (.read n)) : Inv key keyId (step e
    sh s (.read n)) := by
  have hup : (hostRead s n).up = s.up := ho
  rw [step]
  obtain ⟨href,hs,ready,inbound,outbound,hc,hstage⟩ := h
  have hwhole := hstage.whole
  generalize hphase : s.host.phase = phase at hstage
  cases hstage with
  | offered reads hhost hdevice htty =>
    rcases hostRead_handshake hwhole hphase hc.down_eq hup with
      ⟨kept,hkept,hread⟩ | ⟨g,gs,rest,kept,hsplit,-⟩
    · rw [hread]
      exact ⟨href,hs,_,_,_,⟨hc.session_eq,hc.ready_eq,hkept,hc.up_eq,hc.whole⟩,
        .offered (reads+1) hhost hdevice htty⟩
    · simp at hsplit
  | greeted reads hhost hdevice hseals hbound =>
    exact inv_read_greeted href hc hwhole hphase hhost hdevice hseals hbound hup
  | linked hnot hdevice hlinked hout =>
    cases phase with
    | handshake reads => exact hnot.elim
    | idle =>
      rw [hostRead_still (.inl hphase)]
      exact Inv.after _ href hc (by rw [hphase]; trivial) hdevice hlinked hout
    | failed =>
      rw [hostRead_still (.inr hphase)]
      exact Inv.after _ href hc (by rw [hphase]; trivial) hdevice hlinked hout
    | call counter reads =>
      obtain rfl : ready = [] := hnot
      exact inv_read_call href hc hwhole hphase hdevice hlinked hout

theorem Inv.step (h : Inv key keyId s) (ho : Orderly e sh s op) :
    Inv key keyId (step e sh s op) := by
  cases op with
  | read n => exact h.read ho
  | call c => exact h.call c
  | sendTty data => exact h.sendTty data
  | takeTty n => exact h.takeTty n
  | poll n => exact h.poll ho
  | deviceRx n cap => exact h.deviceRx ho
  | devicePoll nowMs cap => exact h.devicePoll ho

end

def Accepts (s : Host) : List HostFrame → Prop
  | [] => True
  | f::fs => (∃ plain, (openFrame s f).2 = .ok plain) ∧ Accepts (openFrame s f).1 fs

/-- What `open_frame` got it took, and will take after the handshake. -/
def Harmless (s : System ω) : Prop :=
  s.host.refused = [] ∧ ((∀ reads, s.host.phase ≠ .handshake reads) →
    Accepts s.host.session (s.host.ready++(extractFrames (s.host.stream++s.down)).1))

theorem Linked.accepts (h : Linked key keyId hs fs n) :
    Accepts (Host.ofSession hs) (fs.map seen) := by
  induction fs generalizing hs with
  | nil => trivial
  | cons f fs ih =>
    obtain ⟨hs',plain,hopen,hrest,-⟩ := h.opens
    rw [map_cons,Accepts,hopen]
    exact ⟨⟨plain,rfl⟩,ih hrest⟩

theorem Inv.harmless {s : System ω} (h : Inv key keyId s) : Harmless s := by
  obtain ⟨href,hs,ready,inbound,outbound,hc,hstage⟩ := h
  refine ⟨href,fun hpast => ?_⟩
  have hwhole := hstage.whole
  generalize s.host.phase = phase at hstage hpast
  cases hstage with
  | offered reads => exact absurd rfl (hpast reads)
  | greeted reads => exact absurd rfl (hpast reads)
  | linked _ _ hlinked _ =>
    rw [hc.session_eq,hc.ready_eq,hc.down_eq,extractFrames_all hwhole,←map_append]
    exact hlinked.accepts

/-- In every run with one Hello, the host opens every frame that the device sends. -/
theorem hello_once_harmless (e : Env ω) (sh : Shell (Device ω)) (key : Block) (keyId : UInt8)
    (world : ω) (ops : List Op)
    (h : Runs.Each (step e sh) (Orderly e sh) (start key keyId world) ops) :
    Harmless (Runs.after (step e sh) (start key keyId world) ops) := by
  have hinv := Runs.invariant (I:=Inv key keyId) (fun _ _ hinv ho => hinv.step ho)
    (inv_start key keyId world) h
  exact hinv.harmless

/-- One Hello, its answer, and the read that ends the handshake. -/
theorem hello_once_harmless_handshake :
    Harmless (Runs.after (step quietEnv quietShell) (start (Vector.replicate 16 0) 1 ())
      [.deviceRx 21 1024,.read 21]) := by
  obtain ⟨hfit,hzero⟩ := first_hello_fits (Vector.replicate 16 0) 1 () quietEnv quietShell
  obtain ⟨c,hstep,-⟩ := step_first_hello (Vector.replicate 16 0) 1 () quietEnv quietShell
  refine hello_once_harmless quietEnv quietShell _ 1 () _ ⟨⟨hfit,fun d hd => ?_⟩,?_,trivial⟩
  · rw [hzero d hd]
    decide
  · rw [hstep]
    change (step quietEnv quietShell (answered _ 1 () c) (.read 21)).up = _
    rw [step_read_hello (linkSessionInit (some (Vector.replicate 16 0)) 1 dirHost)
      rfl rfl rfl rfl rfl rfl]

/-- Hello is offered again after a wait. -/
def offeredTwice (key : Block) (keyId : UInt8) (world : ω) : System ω :=
  { start key keyId world with
    up := wireOf (hello keyId 0 1)++(wireOf (hello keyId 0 1)++[]) }

theorem after_two_hellos : ∃ c, Runs.after (step e sh) (start key keyId world)
      [.read 0,.deviceRx 21 1024,.deviceRx 21 1024] =
    { host := (start key keyId world).host
      device := ⟨Stream.empty,c⟩
      up := []
      down := wireOf (hello keyId 1 1)++(wireOf (prompt key keyId 2)++
        (wireOf (hello keyId 1 3)++wireOf (prompt key keyId 4)))
      answers := [] } := by
  have hoffer : step e sh (start key keyId world) (.read 0) = offeredTwice key keyId world := by
    have hup : offer ⟨key.toList,keyId,dirHost,0,0,0,false⟩ = wireOf (hello keyId 0 1) := offer_eq
    simp only [step,hostRead,start,Link.init,handshakeRead,nextFrame,offeredTwice,hup,
      append_nil]
    rfl
  obtain ⟨c₁,hw₁,hon₁,-,hidle₁,-,hmsg₁⟩ :=
    onWire_hello_prompt e sh (holds_init key keyId world) rfl
  obtain ⟨c₂,hw₂,-⟩ := onWire_hello_prompt e sh hon₁.holds hidle₁
  have hfirst := step_deviceRx_frame (s:=offeredTwice key keyId world) (hello_whole keyId 0 1)
    (hello_length keyId 0 1) rfl rfl hw₁
  rw [dispatched_hello] at hfirst
  have hsecond := step_deviceRx_frame (s:={ offeredTwice key keyId world with
      device := ⟨Stream.empty,c₁⟩
      up := wireOf (hello keyId 0 1)++[]
      down := (offeredTwice key keyId world).down++
        wires [hello keyId 1 1,prompt key keyId 2] }) (hello_whole keyId 0 1)
    (hello_length keyId 0 1) rfl rfl hw₂
  rw [dispatched_hello,hmsg₁] at hsecond
  refine ⟨c₂,?_⟩
  rw [Runs.after_cons,Runs.after_cons,Runs.after_cons,Runs.after_nil,hoffer,hfirst]
  refine hsecond.trans ?_
  simp [offeredTwice,start,linkBridgeInit]

theorem two_hellos_refused : (Runs.after (step e sh) (start key keyId world) [.read 0,.deviceRx
    21 1024,.deviceRx 21 1024,.read 21,.call (.key (text "up") true), .read 44,.read
    21]).host.refused = [seen (hello keyId 1 3)] := by
  obtain ⟨c,hafter⟩ := after_two_hellos
  have hsplit : [.read 0,.deviceRx 21 1024,.deviceRx 21 1024,.read 21,
      .call (.key (text "up") true),.read 44,.read 21] =
      [Op.read 0,Op.deviceRx 21 1024,Op.deviceRx 21 1024]++
        [Op.read 21,Op.call (.key (text "up") true),Op.read 44,Op.read 21] := rfl
  rw [hsplit,Runs.after_append,hafter]
  have hon : HostOn key keyId (restarted (linkSessionInit (some key) keyId dirHost)) :=
    ⟨rfl,rfl,rfl,rfl,rfl⟩
  have hzero : (0 : UInt64).toNat+1 < 2^64 := by decide
  have hfresh : Fresh { restarted (linkSessionInit (some key) keyId dirHost) with
      txCounter := 1 } 0 := by
    change ¬((UInt64.ofNat 0+1 = 0) ∨ UInt64.ofNat 0+1 ≤ 0)
    decide
  rw [Runs.after_cons,step_read_hello (linkSessionInit (some key) keyId dirHost)
    rfl rfl rfl rfl rfl rfl]
  rw [Runs.after_cons,step_call_idle hon rfl rfl rfl encodeCall_keyUp (by decide) hzero]
  rw [Runs.after_cons,step_read_tty (hon.counted 1) rfl rfl rfl hfresh rfl
    (show 35+(text "ardubot$ ").length = 44 by decide) (by decide)]
  rw [Runs.after_cons,step_read_answer (hello_length keyId 1 3) (by decide) rfl rfl
    (hello_whole keyId 1 3) rfl,answer,openFrame_clear (hello_isHello keyId 1 3).2]
  rfl

/-- A second Hello makes the first call raise. -/
theorem second_hello_raises :
    ¬Harmless (Runs.after (step quietEnv quietShell) (start (Vector.replicate 16 0) 1 ())
      [.read 0,.deviceRx 21 1024,.deviceRx 21 1024,.read 21,.call (.key (text "up") true),
        .read 44,.read 21]) := by
  rintro ⟨href,-⟩
  rw [two_hellos_refused] at href
  exact cons_ne_nil _ _ href

end TinyDeviceOs.LinkHandshake
