import TinyDeviceOs.LinkSystem

/-! Replies and calls. A call takes the first result or error that it can open, which is its own as
long as every earlier call has returned. -/
namespace TinyDeviceOs.LinkReplies

open LittleEndian LinkFrame LinkCrypto LinkSession LinkDispatch TtyService LinkBridge
open List
  BridgeRx BridgeSends FramePipe HostCodec HostCalls HostSession HostLink LinkSystem

variable {ω : Type} {key : Block} {keyId : UInt8} {hs : Session}

section

def isReply (f : Frame) : Bool := f.channel = chResult ∨ f.channel = chError

def isCall (f : Frame) : Bool := f.channel = chCall

def replies (fs : List Frame) : List Frame := fs.filter isReply

def calls (fs : List Frame) : List Frame := fs.filter isCall

/-- A Hello, or a frame sealed in session `1`. -/
def FromDevice (key : Block) (keyId : UInt8) (f : Frame) : Prop :=
  (∃ msgId, f = hello keyId 1 msgId) ∨
    ∃ n channel msgId pt, length pt ≤ linkMaxPayload-24 ∧
      f = sealFrame (sessionAt key keyId n) channel msgId pt

/-- Its Hello, terminal input, or a call. -/
def FromHost (key : Block) (keyId : UInt8) (f : Frame) : Prop :=
  f = hello keyId 0 1 ∨ HostSealed key keyId chTty f ∨ HostSealed key keyId chCall f

variable {n m : ℕ} {f : Frame} {fs gs : List Frame}

theorem FromDevice.whole (h : FromDevice key keyId f) : Whole f := by
  rcases h with ⟨msgId,rfl⟩ | ⟨n,channel,msgId,pt,hp,rfl⟩
  · exact hello_whole keyId 1 msgId
  · exact whole_sealFrame channel msgId hp

theorem seals_fromDevice (h : Seals key keyId P n fs m) (f : Frame) (hf : f ∈ fs) :
    FromDevice key keyId f := by
  obtain ⟨k,channel,msgId,pt,hfit,-,hseal⟩ := h.mem hf
  exact .inr ⟨k,channel,msgId,pt,hfit,hseal⟩

theorem replies_tty (h : Seals key keyId OnTty n fs m) : replies fs = [] := by
  induction h with
  | done => rfl
  | spent _ ih => exact ih
  | @sent n m fs channel msgId pt hfit hP _ ih =>
    obtain rfl : channel = chTty := hP
    have hkind : isReply (sealFrame (sessionAt key keyId n) chTty msgId pt) = false := rfl
    rw [replies,filter_cons_of_neg (by rw [hkind]; decide)]
    exact ih

theorem replies_hello : replies (hello keyId 1 msgId::fs) = replies fs :=
  filter_cons_of_neg (by rw [show isReply (hello keyId 1 msgId) = false from rfl]; decide)

theorem replies_append : replies (fs++gs) = replies fs++replies gs :=
  filter_append _ _

theorem calls_append (fs gs : List Frame) : calls (fs++gs) = calls fs++calls gs :=
  filter_append _ _

theorem replies_sublist (h : fs.Sublist gs) : (replies fs).Sublist (replies gs) := h.filter _

theorem replies_eq_nil (h : fs.Sublist gs) (hnil : replies gs = []) : replies fs = [] :=
  sublist_nil.mp (hnil ▸ replies_sublist h)

end

variable {k : UInt64} {channel : UInt8} {msgId : UInt16} {pt : Bytes}

section

/-- A device whose session, if it is open, is `1`. -/
structure Ours (key : Block) (keyId : UInt8) (s : Session) : Prop where
  holds : Holds key keyId s
  session_eq : s.isOpen = true → s.session = 1

variable {f : Frame} {n : ℕ}

theorem Ours.onSession (h : Ours key keyId s) (ho : s.isOpen = true) :
    OnSession key keyId s s.txCounter.toNat :=
  ⟨h.holds.key_eq,h.holds.keyId_eq,h.session_eq ho,h.holds.txDir_eq,ho,by simp⟩

theorem ours_of_onSession (h : OnSession key keyId s n) : Ours key keyId s :=
  ⟨h.holds,fun _ => h.session_eq⟩

/-- It carries what `link_dispatch_call` answers. -/
def Answers (e : Env ω) (key : Block) (keyId : UInt8) (c : Core ω) (f g : Frame) : Prop :=
  isCall f = true ∧ ∃ counter payload m channel msgId reply,
    length reply ≤ linkMaxPayload-24 ∧
    g = sealFrame (sessionAt key keyId m) channel msgId reply ∧
    dispatched e c (wireOf f) = some (counter,payload,some (channel,reply))

/-- At most one reply is sent, and that to the frame. -/
structure Responds (e : Env ω) (key : Block) (keyId : UInt8) (c : Core ω) (f : Frame)
    (fs : List Frame) : Prop where
  fromDevice : ∀ g ∈ fs, FromDevice key keyId g
  le_one : (replies fs).length ≤ 1
  answers : ∀ g ∈ replies fs, Answers e key keyId c f g

theorem Responds.of_tty {e : Env ω} {fs : List Frame} (hfs : ∀ g ∈ fs, FromDevice key keyId g)
    (h : replies fs = []) : Responds e key keyId c f fs :=
  ⟨hfs,by simp [h],by simp [h]⟩

theorem open_hostSealed (h : Ours key keyId s) (hp : pt.length ≤ linkMaxPayload-24) {plain : Frame}
    (hopened : (linkSessionOpen s (sealFrame (hostAt key keyId k) channel msgId pt)).2 =
      some plain) : plain = Frame.ofBody linkVersion 0 channel msgId pt := by
  have ho : s.isOpen = true := by
    rcases linkSessionOpen_cases with
      hno | ⟨ho,-⟩
    · rw [hno] at hopened
      exact absurd hopened (by simp)
    · exact ho
  rw [linkSessionOpen_sealFrame (hostAt key keyId k) channel msgId h.holds.key_eq h.holds.keyId_eq
    (h.session_eq ho) (by rw [h.holds.txDir_eq]; rfl) ho hp] at hopened
  split_ifs at hopened
  exact (Option.some.inj hopened).symm

variable (e : Env ω) (sh : Shell (Device ω))

theorem onWire_hostSealed (h : Ours key keyId c.session) (tx : Tx)
    (hp : pt.length ≤ linkMaxPayload-24) (hf : sealFrame (hostAt key keyId k) channel msgId pt = f) :
    (linkSessionOpen c.session f).2 = none ∧ onWire e sh (c,tx) (wireOf f) = ((c,tx),true) ∨
      ∃ r, OnSession key keyId { c.session with rxCounter := r } c.session.txCounter.toNat ∧
        (linkSessionOpen c.session f).2 = some (Frame.ofBody linkVersion 0 channel msgId pt) ∧
        onWire e sh (c,tx) (wireOf f) =
          asCallback (onPlain e sh { c with session := { c.session with rxCounter := r } } tx
            (Frame.ofBody linkVersion 0 channel msgId pt)) := by
  have hdecode := (whole_sealFrame (s:=hostAt key keyId k) channel msgId hp).decode
  rw [hf] at hdecode
  have hg : ¬Greets (wireOf f) := by
    rintro ⟨n,g,hd,hh⟩
    rw [hdecode] at hd
    obtain ⟨-,rfl⟩ := Prod.mk.inj (Option.some.inj hd)
    exact not_isHello_sealFrame (hf▸hh)
  have hopen : opened c.session (wireOf f) = (linkSessionOpen c.session f).2 := by
    rw [opened,hdecode]
  cases hopened : (linkSessionOpen c.session f).2 with
  | none => exact .inl ⟨rfl,onWire_dropped hg (hopen.trans hopened)⟩
  | some plain =>
    obtain ⟨r,ho,hres,-⟩ := onWire_opened e sh tx hg (hopen.trans hopened)
    obtain rfl := open_hostSealed h hp (hf▸hopened)
    exact .inr ⟨r,(h.onSession ho).moved r,rfl,hres⟩

theorem onPlain_call (tx : Tx) (msgId : UInt16) (hp : pt.length ≤ linkMaxPayload-24) : onPlain e
    sh c tx (Frame.ofBody linkVersion 0 chCall msgId pt) = onCall e c tx pt := by
  have htty : ¬(Frame.ofBody linkVersion 0 chCall msgId pt).channel = chTty :=
    show ¬chCall = chTty by decide
  have hcall : ¬(Frame.ofBody linkVersion 0 chCall msgId pt).channel ≠ chCall := not_not.mpr rfl
  rw [onPlain,if_neg htty,if_neg hcall,Frame.ofBody_body (by omega)]

theorem dispatched_sealed
    (hp : pt.length ≤ linkMaxPayload-24) :
    dispatched e c (wireOf (sealFrame (hostAt key keyId k) chCall msgId pt)) =
      match (linkSessionOpen c.session (sealFrame (hostAt key keyId k) chCall msgId pt)).2 with
      | none => none
      | some plain =>
        if plain.channel = chCall then
          some ((k+1).toNat,plain.body,
            (linkDispatchCall (handlers e) plain.body linkMaxPayload c.device).2)
        else none := by
  rw [dispatched,(whole_sealFrame chCall msgId hp).decode]
  dsimp only
  rw [if_neg not_isHello_sealFrame,frameCounter_sealFrame (hostAt key keyId k) chCall msgId hp]
  rfl

theorem dispatched_call
    (hp : pt.length ≤ linkMaxPayload-24)
    (hopened : (linkSessionOpen c.session (sealFrame (hostAt key keyId k) chCall msgId pt)).2 =
      some (Frame.ofBody linkVersion 0 chCall msgId pt)) :
    dispatched e c (wireOf (sealFrame (hostAt key keyId k) chCall msgId pt)) =
      some ((k+1).toNat,pt,(linkDispatchCall (handlers e) pt linkMaxPayload c.device).2) := by
  have hchannel : (Frame.ofBody linkVersion 0 chCall msgId pt).channel = chCall := rfl
  rw [dispatched_sealed e hp,hopened]
  dsimp only
  rw [if_pos hchannel,Frame.ofBody_body (by omega)]

theorem dispatched_eq (h : Ours key keyId c.session) (hp : pt.length ≤ linkMaxPayload-24) (hd :
    dispatched e c (wireOf (sealFrame (hostAt key keyId k) chCall msgId pt)) = some
    (counter,payload,reply)) : counter = (k+1).toNat ∧ payload = pt := by
  cases hopened : (linkSessionOpen c.session (sealFrame (hostAt key keyId k) chCall msgId pt)).2 with
  | none =>
    rw [dispatched_sealed e hp,hopened] at hd
    exact absurd hd (by simp)
  | some plain =>
    obtain rfl := open_hostSealed h hp hopened
    rw [dispatched_call e hp hopened] at hd
    obtain ⟨hcounter,hrest⟩ := Prod.mk.inj (Option.some.inj hd)
    exact ⟨hcounter.symm,(Prod.mk.inj hrest).1.symm⟩

theorem onWire_fromHost (h : Ours key keyId c.session) (tx : Tx) (hf : FromHost key keyId f) :
    Ours key keyId (onWire e sh (c,tx) (wireOf f)).1.1.session ∧
      ((onWire e sh (c,tx) (wireOf f)).2 = true → ∃ fs,
        (onWire e sh (c,tx) (wireOf f)).1.2.out = tx.out++wires fs ∧
          Responds e key keyId c f fs) := by
  have hquiet : ∃ fs, tx.out = tx.out++wires fs ∧ Responds e key keyId c f fs :=
    ⟨[],by simp,.of_tty (by simp) rfl⟩
  rcases hf with rfl | ⟨k,msgId,pt,hp,rfl⟩ | ⟨k,msgId,pt,hp,rfl⟩
  · rcases onWire_hello e sh h.holds tx 0 1 with hfail | ⟨c',tx',fs,m,hok,hseals,-,hout,hon⟩
    · rw [hfail]
      exact ⟨ours_of_onSession h.holds.restarted,nofun⟩
    · rw [hok]
      refine ⟨ours_of_onSession hon,fun _ => ⟨_,hout,.of_tty ?_ ?_⟩⟩
      · exact forall_mem_cons.mpr ⟨.inl ⟨_,rfl⟩,seals_fromDevice hseals⟩
      · rw [replies_hello,replies_tty hseals]
  · rcases onWire_hostSealed e sh h tx hp rfl with ⟨-,hdrop⟩ | ⟨r,hon,-,hres⟩
    · rw [hdrop]
      exact ⟨h,fun _ => hquiet⟩
    · have htty : (Frame.ofBody linkVersion 0 chTty msgId pt).channel = chTty := rfl
      obtain ⟨-,fs,m,hposts⟩ := onPlain_tty e sh
        (c:={ c with session := { c.session with rxCounter := r } }) hon tx htty
      rw [hres]
      exact ⟨ours_of_onSession hposts.session,fun _ => ⟨fs,hposts.out_eq,
        .of_tty (seals_fromDevice hposts.seals) (replies_tty hposts.seals)⟩⟩
  · rcases onWire_hostSealed e sh h tx hp rfl with ⟨-,hdrop⟩ | ⟨r,hon,hopened,hres⟩
    · rw [hdrop]
      exact ⟨h,fun _ => hquiet⟩
    · obtain ⟨fs,m,hposts,hone⟩ := onCall_posts
        (c:={ c with session := { c.session with rxCounter := r } }) hon tx pt
      rw [hres,onPlain_call e sh tx msgId hp]
      refine ⟨ours_of_onSession hposts.session,fun _ => ⟨fs,hposts.out_eq,
        seals_fromDevice hposts.seals,?_,fun g hg => ?_⟩⟩
      · exact le_trans (length_filter_le _ _) hone
      · obtain ⟨n,channel,replyId,reply,hfit,hr,rfl⟩ := hposts.seals.mem
          (mem_of_mem_filter hg)
        refine ⟨rfl,(k+1).toNat,pt,n,channel,replyId,reply,hfit,rfl,?_⟩
        rw [dispatched_call e hp hopened,hr]

end

variable {l : Link} {inbound : List Frame}

section

variable {f : Frame} {fs : List Frame}

section

variable (h : HostOn key keyId hs)
include h

theorem openFrame_fromDevice (hf : FromDevice key keyId f) : ∃ hs' r, openFrame (Host.ofSession
    hs) (seen f) = (Host.ofSession hs',r) ∧ HostOn key keyId hs' := by
  rcases hf with ⟨msgId,rfl⟩ | ⟨n,channel,msgId,pt,hp,rfl⟩
  · exact ⟨hs,_,openFrame_clear (hello_isHello keyId 1 msgId).2,h⟩
  · by_cases hfresh : Fresh hs n
    · exact ⟨_,_,h.accepts channel msgId hp hfresh,h.moved _⟩
    · obtain ⟨err,hopen⟩ := h.refuses channel msgId hp hfresh
      exact ⟨hs,_,hopen,h⟩

theorem openFrame_sealed {n : ℕ} (hp : pt.length ≤ linkMaxPayload-24) {s : Host} (hopen :
    openFrame (Host.ofSession hs) (seen (LinkSession.sealFrame (sessionAt key keyId n) channel
    msgId pt)) = (s,.ok plain)) : plain = ⟨channel.toNat,msgId.toNat,pt⟩ := by
  by_cases hfresh : Fresh hs n
  · rw [h.accepts channel msgId hp hfresh] at hopen
    exact (Except.ok.inj (Prod.mk.inj hopen).2).symm
  · obtain ⟨err,hrefused⟩ := h.refuses channel msgId hp hfresh
    rw [hrefused] at hopen
    exact absurd (Prod.mk.inj hopen).2 (by simp)

theorem isReply_of_opened (hf : FromDevice key keyId f) {s : Host} (hopen : openFrame
    (Host.ofSession hs) (seen f) = (s,.ok plain)) (hreply : plain.channel = chResult.toNat ∨
    plain.channel = chError.toNat) : isReply f = true := by
  rcases hf with ⟨msgId,rfl⟩ | ⟨n,channel,msgId,pt,hp,rfl⟩
  · rw [openFrame_clear (hello_isHello keyId 1 msgId).2] at hopen
    exact absurd (Prod.mk.inj hopen).2 (by simp)
  · obtain rfl := openFrame_sealed h hp hopen
    exact decide_eq_true (hreply.imp UInt8.toNat_inj.mp UInt8.toNat_inj.mp)

end

/-- It raises, waits for more, or returns what it got. -/
inductive Outcome (key : Block) (keyId : UInt8) (l : Link) (counter : ℕ) (fs : List Frame) :
    Link → Prop
  | raised {hs : Session} {gs : List Frame} (refused : List HostFrame)
    (hon : HostOn key keyId hs) (hgs : gs.Sublist fs) :
    Outcome key keyId l counter fs { l with
      session := Host.ofSession hs, ready := gs.map seen, phase := .idle, refused := refused }
  | waits {hs : Session} (hon : HostOn key keyId hs) :
    Outcome key keyId l counter fs { l with
      session := Host.ofSession hs, ready := [], phase := .call counter 0 }
  | returned {hs hs' : Session} {f : Frame} {gs : List Frame} {plain : Plain}
    (hon : HostOn key keyId hs) (hon' : HostOn key keyId hs') (hgs : (f::gs).Sublist fs)
    (hopen : openFrame (Host.ofSession hs) (seen f) = (Host.ofSession hs',.ok plain))
    (hreply : plain.channel = chResult.toNat ∨ plain.channel = chError.toNat) :
    Outcome key keyId l counter fs { l with
      session := Host.ofSession hs'
      ready := gs.map seen
      phase := .idle
      returned := (counter,describe plain)::l.returned }

theorem answer_outcome (hl : l.session = Host.ofSession hs)
    (h : HostOn key keyId hs) (hfs : ∀ f ∈ fs, FromDevice key keyId f) (counter : ℕ) :
    Outcome key keyId l counter fs (answer l counter (fs.map seen)) := by
  induction fs generalizing hs l with
  | nil =>
    have hwaits : Outcome key keyId l counter [] _ := .waits h
    rwa [←hl] at hwaits
  | cons f fs ih =>
    rw [forall_mem_cons] at hfs
    obtain ⟨hs',r,hopen,hon⟩ := openFrame_fromDevice h hfs.1
    rw [map_cons,answer,hl,hopen]
    cases r with
    | error err => exact .raised _ hon (sublist_cons_self f fs)
    | ok plain =>
      dsimp only
      split_ifs with hreply
      · exact .returned h hon (List.Sublist.refl _) hopen hreply
      · have hrest := ih (l:={ l with session := Host.ofSession hs' }) rfl hon hfs.2
        generalize answer { l with session := Host.ofSession hs' } counter (fs.map seen) = l' at hrest
        cases hrest with
        | raised refused hon hgs => exact .raised refused hon (hgs.cons f)
        | waits hon => exact .waits hon
        | returned hon hon' hgs hopen hreply => exact .returned hon hon' (hgs.cons f) hopen hreply

theorem absorb_on (h : HostOn key keyId hs) (hfs : ∀ f ∈ fs, FromDevice key keyId f) :
    ∃ hs' results, absorb (Host.ofSession hs) (fs.map seen) = (Host.ofSession hs',results) ∧
      HostOn key keyId hs' := by
  induction fs generalizing hs with
  | nil => exact ⟨hs,[],rfl,h⟩
  | cons f fs ih =>
    rw [forall_mem_cons] at hfs
    rw [map_cons,absorb]
    split_ifs with hskip
    · exact ih h hfs.2
    · obtain ⟨hs₁,r,hopen,hon₁⟩ := openFrame_fromDevice h hfs.1
      obtain ⟨hs₂,results,habsorb,hon₂⟩ := ih hon₁ hfs.2
      rw [hopen]
      exact ⟨hs₂,_,by rw [habsorb],hon₂⟩

def Fits (key : Block) (keyId : UInt8) (hs : Session) (ready : List Frame) : Phase → Prop
  | .handshake _ => hs = linkSessionInit (some key) keyId dirHost
  | .idle => HostOn key keyId hs
  | .call _ _ => HostOn key keyId hs ∧ ready = []
  | .failed => True

theorem acceptHello_sealed : ∃ err, acceptHello (Host.ofSession hs) (seen (sealFrame s channel
    msgId pt)) 0 = (Host.ofSession hs,.error err) := by
  have hsealed : (sealFrame s channel msgId pt).flags &&& flagEncrypted ≠ 0 := by
    change flagEncrypted &&& flagEncrypted ≠ 0
    decide
  have hrefused : linkSessionAcceptHello hs (sealFrame s channel msgId pt) 0 = (hs,false) := by
    rw [linkSessionAcceptHello,helloSession,if_pos (.inr hsealed)]
  obtain ⟨hsession,hok⟩ := acceptHello_eq hs (sealFrame s channel msgId pt)
    (wireOf (sealFrame s channel msgId pt)) (wireOf (sealFrame s channel msgId pt)).length 0
  rw [hrefused] at hsession hok
  cases hr : (acceptHello (Host.ofSession hs) (seen (sealFrame s channel msgId pt)) 0).2 with
  | error err => exact ⟨err,Prod.ext hsession hr⟩
  | ok _ => cases hok.mp hr

section

variable (hl : l.session = Host.ofSession (linkSessionInit (some key) keyId dirHost))
include hl

theorem greet_outcome
    (hfs : ∀ f ∈ fs, FromDevice key keyId f) :
    ∃ hs gs phase k, greet l (fs.map seen) =
        ({ l with session := Host.ofSession hs, ready := gs.map seen, phase := phase },
          wires (replicate k (hello keyId 0 1))) ∧
      gs.Sublist fs ∧ Fits key keyId hs gs phase ∧ ∀ counter reads, phase ≠ .call counter reads := by
  induction fs with
  | nil => exact ⟨_,[],.handshake 0,0,by rw [←hl]; rfl,List.Sublist.refl _,rfl,by simp⟩
  | cons f fs ih =>
    rw [forall_mem_cons] at hfs
    rcases hfs.1 with ⟨msgId,rfl⟩ | ⟨n,channel,msgId,pt,hp,rfl⟩
    · have hid : (linkSessionInit (some key) keyId dirHost).keyId = keyId := rfl
      rw [map_cons,greet_hello hl hid rfl]
      exact ⟨_,fs,.idle,0,rfl,sublist_cons_self _ fs,⟨rfl,rfl,rfl,rfl,rfl⟩,by simp⟩
    rw [map_cons,greet]
    split_ifs with hchannel
    · obtain ⟨hs,gs,phase,k,hgreet,hgs,hfits,hphase⟩ := ih hfs.2
      have hoffer : offer l.session = wireOf (hello keyId 0 1) := by
        rw [offer_eq,hl]
        rfl
      refine ⟨hs,gs,phase,k+1,?_,hgs.cons _,hfits,hphase⟩
      rw [hgreet,hoffer,replicate_succ,wires_cons]
    · obtain ⟨err,hrefused⟩ := acceptHello_sealed
      rw [hl,hrefused]
      exact ⟨_,fs,.failed,0,rfl,sublist_cons_self _ fs,trivial,by simp⟩

theorem handshakeRead_outcome {ready : List Frame} {down : Bytes}
    (hready : l.ready = ready.map seen) (hin : ∀ f ∈ inbound, FromDevice key keyId f)
    (hdown : l.stream++down = wires inbound) (reads : ℕ) :
    ∃ hs ready' inbound' phase kept k, handshakeRead l reads (down.take n) =
        ({ l with
          session := Host.ofSession hs
          stream := kept
          ready := ready'.map seen
          phase := phase },wires (replicate k (hello keyId 0 1))) ∧
      kept++down.drop n = wires inbound' ∧ (ready'++inbound').Sublist (ready++inbound) ∧
      Fits key keyId hs ready' phase ∧ ∀ counter reads, phase ≠ .call counter reads := by
  have hoffer : offer l.session = wires (replicate 1 (hello keyId 0 1)) := by
    rw [offer_eq,hl]
    simp [Host.ofSession,linkSessionInit]
  rcases nextFrame_wires (fun f hf => (hin f hf).whole) hdown reads n with
    ⟨kept,hkept,hnext | hnext⟩ | ⟨g,gs,rest,kept,rfl,hkept,hnext⟩
  · refine ⟨_,ready,inbound,.handshake 0,kept,1,?_,hkept,List.Sublist.refl _,rfl,by simp⟩
    rw [handshakeRead,hnext,hoffer,←hl,←hready]
  · refine ⟨_,ready,inbound,.handshake (reads+1),kept,0,?_,hkept,List.Sublist.refl _,rfl,by simp⟩
    rw [handshakeRead,hnext,←hl,←hready]
    rfl
  · obtain ⟨hs,us,phase,k,hgreet,hus,hfits,hphase⟩ := greet_outcome (l:={ l with stream := kept })
      hl (forall_mem_append.mp hin).1
    refine ⟨hs,us,rest,phase,kept,k,?_,hkept,?_,hfits,hphase⟩
    · rw [handshakeRead,hnext]
      exact hgreet
    · exact (hus.append_right rest).trans (sublist_append_right ready _)

end

end

section

def Brings (key : Block) (keyId : UInt8) (answers : List (ℕ × Bytes × Reply)) (counter : ℕ)
    (payload : Bytes) (g : Frame) : Prop :=
  ∃ m channel msgId reply, length reply ≤ linkMaxPayload-24 ∧
    g = sealFrame (sessionAt key keyId m) channel msgId reply ∧
    (counter,payload,some (channel,reply)) ∈ answers

/-- To the device, or at most with its reply on its way back. -/
inductive Underway (key : Block) (keyId : UInt8) (answers : List (ℕ × Bytes × Reply))
    (counter : ℕ) (payload : Bytes) (down up : List Frame) : Prop
  | asked {k : UInt64} {msgId : UInt16}
    (hcalls : calls up = [sealFrame (hostAt key keyId k) chCall msgId payload])
    (hfit : payload.length ≤ linkMaxPayload-24) (hk : (k+1).toNat = counter)
    (hreplies : replies down = [])
  | heard (hcalls : calls up = []) (hone : (replies down).length ≤ 1)
    (hbrings : ∀ g ∈ replies down, Brings key keyId answers counter payload g)

/-- If all calls have returned, nothing is on its way. -/
inductive Books (key : Block) (keyId : UInt8) (answers : List (ℕ × Bytes × Reply)) (phase : Phase)
    (started : List (ℕ × Bytes)) (returned : List (ℕ × Text)) (down up : List Frame) : Prop
  | between (hphase : ∀ counter reads, phase ≠ .call counter reads)
    (hlength : returned.length ≤ started.length)
    (hclear : started.length = returned.length → calls up = [] ∧ replies down = [])
  | waiting {counter reads : ℕ} {payload : Bytes} {older : List (ℕ × Bytes)}
    (hphase : phase = .call counter reads) (hstarted : started = (counter,payload)::older)
    (hlength : returned.length ≤ older.length)
    (hunderway : Underway key keyId answers counter payload down up)

variable {counter : ℕ} {phase : Phase} {f : Frame} {down down' up fs : List Frame}

section

variable (h : Underway key keyId answers counter payload down up)
include h

theorem Underway.mono (hcalls : calls up' = calls up) (hsub : (replies down').Sublist (replies down))
    (hans : answers ⊆ answers') : Underway key keyId answers' counter payload down' up' := by
  cases h with
  | asked hone hfit hk hnil =>
    exact .asked (hcalls.trans hone) hfit hk (sublist_nil.mp (hnil ▸ hsub))
  | heard hnil hone hbrings =>
    refine .heard (hcalls.trans hnil) (le_trans hsub.length_le hone) fun g hg => ?_
    obtain ⟨m,channel,msgId,reply,hfit,hg,hmem⟩ := hbrings g (hsub.subset hg)
    exact ⟨m,channel,msgId,reply,hfit,hg,hans hmem⟩

theorem Underway.shrink (hsub : down'.Sublist down) :
    Underway key keyId answers counter payload down' up :=
  h.mono rfl (replies_sublist hsub) (Subset.refl _)

end

section

variable (h : Books key keyId answers phase started returned down up)
include h

theorem Books.mono (hcalls : calls up' = calls up) (hsub : (replies down').Sublist (replies down))
    (hans : answers ⊆ answers') : Books key keyId answers' phase started returned down' up' := by
  cases h with
  | between hphase hlength hclear =>
    refine .between hphase hlength fun hsame => ?_
    obtain ⟨hnone,hnil⟩ := hclear hsame
    exact ⟨hcalls.trans hnone,sublist_nil.mp (hnil ▸ hsub)⟩
  | waiting hphase hstarted hlength hunderway =>
    exact .waiting hphase hstarted hlength (hunderway.mono hcalls hsub hans)

theorem Books.of_calls (hcalls : calls up' = calls up) :
    Books key keyId answers phase started returned down up' :=
  h.mono hcalls (.refl _) (Subset.refl _)

theorem Books.length_le :
    returned.length ≤ started.length := by
  cases h with
  | between _ hlength _ => exact hlength
  | waiting _ hstarted hlength _ =>
    rw [hstarted,length_cons]
    omega

theorem Books.clear
    (hphase : ∀ counter reads, phase ≠ .call counter reads)
    (hsame : started.length = returned.length) : calls up = [] ∧ replies down = [] := by
  cases h with
  | between _ _ hclear => exact hclear hsame
  | waiting hcall => exact absurd hcall (hphase _ _)

theorem Books.shrink (hsub : down'.Sublist down) :
    Books key keyId answers phase started returned down' up :=
  h.mono rfl (replies_sublist hsub) (Subset.refl _)

theorem Books.send (hfs : replies fs = []) :
    Books key keyId answers phase started returned (down++fs) up :=
  h.mono rfl (by rw [replies_append,hfs,append_nil]) (Subset.refl _)

end

theorem Responds.replies_eq_nil {e : Env ω} {c : Core ω} (h : Responds e key keyId c f fs)
    (hf : isCall f = false) : replies fs = [] := by
  refine eq_nil_iff_forall_not_mem.mpr fun g hg => ?_
  rw [(h.answers g hg).1] at hf
  cases hf

/-- The device has taken a frame and responded. -/
theorem Books.responds {e : Env ω} {c : Core ω}
    (h : Books key keyId answers phase started returned down (f::up))
    (hours : Ours key keyId c.session) (hr : Responds e key keyId c f fs)
    (hans : ∀ a, dispatched e c (wireOf f) = some a → a ∈ answers) :
    Books key keyId answers phase started returned (down++fs) up := by
  cases hcall : isCall f with
  | false =>
    have hcalls : calls (f::up) = calls up := filter_cons_of_neg (by simp [hcall])
    exact (h.send (hr.replies_eq_nil hcall)).of_calls hcalls.symm
  | true =>
    have hcalls : calls (f::up) = f::calls up := filter_cons_of_pos hcall
    cases h with
    | between hphase hlength hclear =>
      refine .between hphase hlength fun hsame => ?_
      have hnil := (hclear hsame).1
      rw [hcalls] at hnil
      exact absurd hnil (cons_ne_nil _ _)
    | waiting hphase hstarted hlength hunderway =>
      refine .waiting hphase hstarted hlength ?_
      cases hunderway with
      | heard hnil _ _ =>
        rw [hcalls] at hnil
        exact absurd hnil (cons_ne_nil _ _)
      | @asked k msgId hone hfit hk hreplies =>
        rw [hcalls] at hone
        obtain ⟨rfl,hnil⟩ := cons.inj hone
        have hdown : replies (down++fs) = replies fs := by
          rw [replies_append,hreplies,nil_append]
        refine .heard hnil (hdown ▸ hr.le_one) fun g hg => ?_
        rw [hdown] at hg
        obtain ⟨-,counter',payload',m,channel,replyId,reply,hreply,rfl,hd⟩ := hr.answers g hg
        obtain ⟨rfl,rfl⟩ := dispatched_eq e hours hfit hd
        exact ⟨m,channel,replyId,reply,hreply,rfl,hk ▸ hans _ hd⟩

/-- A call is returned its own reply, and nothing is left. -/
theorem Underway.own_reply (h : Underway key keyId answers counter payload (fs++inbound)
    outbound) (hfs : ∀ g ∈ fs, FromDevice key keyId g) (hon : HostOn key keyId hs) (hgs :
    (f::gs).Sublist fs) (hopen : openFrame (Host.ofSession hs) (seen f) = (Host.ofSession
    hs',.ok plain)) (hreply : plain.channel = chResult.toNat ∨ plain.channel = chError.toNat) :
    calls outbound = [] ∧ replies (gs++inbound) = [] ∧ ∃ channel reply msgId,
    (counter,payload,some (channel,reply)) ∈ answers ∧ describe plain = describe ⟨UInt8.toNat
    channel,msgId,reply⟩ := by
  have hf := hfs f (hgs.subset mem_cons_self)
  have hkind := isReply_of_opened hon hf hopen hreply
  have hsub : (f::replies (gs++inbound)).Sublist (replies (fs++inbound)) := by
    have hcons : replies ((f::gs)++inbound) = f::replies (gs++inbound) :=
      filter_cons_of_pos hkind
    rw [←hcons]
    exact replies_sublist (hgs.append_right inbound)
  cases h with
  | asked _ _ _ hnil =>
    rw [hnil] at hsub
    exact absurd (sublist_nil.mp hsub) (cons_ne_nil _ _)
  | heard hcalls hone hbrings =>
    have hlength := hsub.length_le
    rw [length_cons] at hlength
    obtain ⟨m,channel,msgId,reply,hfit,rfl,hmem⟩ := hbrings f (hsub.subset mem_cons_self)
    obtain rfl := openFrame_sealed hon hfit hopen
    exact ⟨hcalls,eq_nil_of_length_eq_zero (by omega),channel,reply,_,hmem,rfl⟩

end

end TinyDeviceOs.LinkReplies
