import TinyDeviceOs.BridgeRx
import TinyDeviceOs.FramePipe

/-! What the device puts on the wire: a Hello in the clear, then frames sealed in session `1` under
increasing counters, some of them spent on nothing. -/
namespace TinyDeviceOs.BridgeSends

open LittleEndian LinkFrame LinkCrypto LinkSession LinkDispatch TtyService LinkBridge
open List
  BridgeNonces BridgeRx FramePipe

section

def hello (keyId : UInt8) (sessionId msgId : UInt16) : Frame :=
  Frame.ofBody linkVersion 0 chHello msgId
    ([tagVersion,1,linkVersion,tagKeyId,1,keyId,tagSession,2]++le16 sessionId)

variable (s : Session) (keyId : UInt8) (sessionId msgId : UInt16)

theorem hello_whole : Whole (hello keyId sessionId msgId) := whole_ofBody (by simp [linkMaxPayload])

theorem hello_isHello : isHello (hello keyId sessionId msgId) :=
  ⟨rfl,by change 0 &&& flagEncrypted = 0; decide⟩

theorem hello_body : (hello keyId sessionId msgId).body =
    [tagVersion,1,linkVersion,tagKeyId,1,keyId,tagSession,2]++le16 sessionId :=
  Frame.ofBody_body (by simp [linkMaxPayload])

theorem hello_length : (wireOf (hello keyId sessionId msgId)).length = 21 := by
  rw [(hello_whole keyId sessionId msgId).length,hello,Frame.ofBody_length (by simp [linkMaxPayload])]
  rfl

theorem linkSessionEncodeHello_eq : linkSessionEncodeHello s sessionId msgId linkMaxFrame =
    some (wireOf (hello s.keyId sessionId msgId)) := by
  rw [linkSessionEncodeHello,helloPayload_eq]
  exact (hello_whole s.keyId sessionId msgId).encode

theorem helloSession_hello (h : s.keyId = keyId) :
    helloSession s (hello keyId sessionId msgId) = some sessionId := by
  have hkind : ¬((hello keyId sessionId msgId).channel ≠ chHello ∨
      (hello keyId sessionId msgId).flags &&& flagEncrypted ≠ 0) := by
    have hh := hello_isHello keyId sessionId msgId
    rintro (h | h)
    · exact h hh.1
    · exact h hh.2
  have hversion : linkTlvGet tagVersion 1 (hello keyId sessionId msgId).body = some [linkVersion] := by
    rw [hello_body]
    exact linkTlvGet_field tagVersion 1 [linkVersion] _ (by decide)
  have hid : linkTlvGet tagKeyId 1 (hello keyId sessionId msgId).body = some [s.keyId] := by
    rw [hello_body,h]
    refine (linkTlvGet_field tagKeyId 1 [linkVersion] _ (by decide)).trans ?_
    exact linkTlvGet_field tagKeyId 1 [keyId] _ (by simp)
  have hsession : linkTlvGet tagSession 2 (hello keyId sessionId msgId).body =
      some (le16 sessionId) := by
    rw [hello_body]
    refine (linkTlvGet_field tagSession 2 [linkVersion] _ (by decide)).trans ?_
    refine (linkTlvGet_field tagSession 2 [keyId] _ (by simp)).trans ?_
    refine (linkTlvGet_field tagSession 2 (le16 sessionId) [] (by simp)).trans ?_
    rfl
  rw [helloSession,if_neg hkind,if_neg (not_not.mpr hversion),if_neg (not_not.mpr hid),hsession]
  simp [le16]

end

section

variable (key : Block) (keyId : UInt8)

def sessionAt (n : ℕ) : Session := ⟨key,keyId,1,UInt64.ofNat n,0,dirDevice,true⟩

/-- The frames sealed between two counters, without those not sent. -/
inductive Seals (P : UInt8 → Bytes → Prop) : ℕ → List Frame → ℕ → Prop
  | done (n : ℕ) : Seals P n [] n
  | spent {n m : ℕ} {fs : List Frame} (h : Seals P (n+1) fs m) : Seals P n fs m
  | sent {n m : ℕ} {fs : List Frame} (channel : UInt8) (msgId : UInt16) {pt : Bytes}
    (hfit : pt.length ≤ linkMaxPayload-24) (hP : P channel pt) (h : Seals P (n+1) fs m) :
    Seals P n (sealFrame (sessionAt key keyId n) channel msgId pt::fs) m

variable {key keyId} {n m k : ℕ} {fs gs : List Frame}

section

variable (h : Seals key keyId P n fs m)
include h

theorem Seals.le : n ≤ m := by
  induction h with
  | done => exact le_rfl
  | spent _ ih => omega
  | sent _ _ _ _ _ ih => omega

theorem Seals.append (h' : Seals key keyId P m gs k) :
    Seals key keyId P n (fs++gs) k := by
  induction h with
  | done => exact h'
  | spent _ ih => exact .spent (ih h')
  | sent channel msgId hfit hP _ ih => exact .sent channel msgId hfit hP (ih h')

theorem Seals.discard : Seals key keyId P n [] m := by
  induction h with
  | done => exact .done _
  | spent _ ih => exact .spent ih
  | sent _ _ _ _ _ ih => exact .spent ih

theorem Seals.mono (hPQ : ∀ channel pt, P channel pt → Q channel pt) :
    Seals key keyId Q n fs m := by
  induction h with
  | done => exact .done _
  | spent _ ih => exact .spent ih
  | sent channel msgId hfit hP _ ih => exact .sent channel msgId hfit (hPQ _ _ hP) ih

theorem Seals.mem (hf : f ∈ fs) : ∃ k channel msgId pt, length pt ≤ linkMaxPayload-24 ∧ P
    channel pt ∧ f = sealFrame (sessionAt key keyId k) channel msgId pt := by
  induction h with
  | done => simp at hf
  | spent _ ih => exact ih hf
  | @sent n m fs channel msgId pt hfit hP _ ih =>
    rcases mem_cons.mp hf with rfl | hmem
    · exact ⟨n,channel,msgId,pt,hfit,hP,rfl⟩
    · exact ih hmem

theorem Seals.whole (f : Frame) (hf : f ∈ fs) : Whole f := by
  obtain ⟨k,channel,msgId,pt,hfit,-,rfl⟩ := h.mem hf
  exact whole_sealFrame channel msgId hfit

end

theorem Seals.lower (h : Seals key keyId P k fs m) (hle : n ≤ k) : Seals key keyId P n fs m := by
  induction k,hle using Nat.le_induction with
  | base => exact h
  | succ k _ ih => exact ih (.spent h)

theorem Seals.head (h : Seals key keyId P n (f::fs) m) : ∃ k channel msgId pt, n ≤ k ∧ pt.length
    ≤ linkMaxPayload-24 ∧ P channel pt ∧ f = sealFrame (sessionAt key keyId k) channel msgId pt
    ∧ Seals key keyId P (k+1) fs m := by
  generalize hgs : f::fs = gs at h
  induction h with
  | done => simp at hgs
  | spent _ ih =>
    obtain ⟨k,channel,msgId,pt,hk,hrest⟩ := ih hgs
    exact ⟨k,channel,msgId,pt,by omega,hrest⟩
  | @sent n m fs channel msgId pt hfit hP h _ =>
    obtain ⟨rfl,rfl⟩ := cons.inj hgs
    exact ⟨n,channel,msgId,pt,le_rfl,hfit,hP,rfl,h⟩

theorem Seals.take (h : Seals key keyId P n (fs++gs) m) : Seals key keyId P n fs m := by
  induction fs generalizing n with
  | nil => exact h.discard
  | cons f fs ih =>
    obtain ⟨k,channel,msgId,pt,hk,hp,hP,rfl,hrest⟩ := h.head
    exact (Seals.sent channel msgId hp hP (ih hrest)).lower hk

variable (key keyId)

/-- The device's session is `1`, open, and has spent `n` counters. -/
structure OnSession (s : Session) (n : ℕ) : Prop where
  key_eq : s.key = key
  keyId_eq : s.keyId = keyId
  session_eq : s.session = 1
  txDir_eq : s.txDir = dirDevice
  isOpen_eq : s.isOpen = true
  counter_eq : s.txCounter = UInt64.ofNat n

variable {key keyId}

section

variable (h : OnSession key keyId s n)
include h

theorem OnSession.sealFrame (channel : UInt8) (msgId : UInt16) (pt : Bytes) : sealFrame s
    channel msgId pt = sealFrame (sessionAt key keyId n) channel msgId pt := by
  obtain ⟨sKey,sKeyId,sSession,sTx,sRx,sDir,sOpen⟩ := s
  obtain ⟨rfl,rfl,rfl,rfl,rfl,rfl⟩ := h
  rfl

theorem OnSession.next :
    OnSession key keyId { s with txCounter := s.txCounter+1 } (n+1) := by
  refine ⟨h.key_eq,h.keyId_eq,h.session_eq,h.txDir_eq,h.isOpen_eq,?_⟩
  rw [UInt64.ofNat_add,←h.counter_eq]
  rfl

theorem OnSession.counter_toNat (hn : n < 2^64) : s.txCounter.toNat = n := by
  rw [h.counter_eq,UInt64.toNat_ofNat']
  exact Nat.mod_eq_of_lt hn

theorem OnSession.moved (r : UInt64) :
    OnSession key keyId { s with rxCounter := r } n :=
  ⟨h.key_eq,h.keyId_eq,h.session_eq,h.txDir_eq,h.isOpen_eq,h.counter_eq⟩

end

end

section

variable {ω : Type} {key : Block} {keyId : UInt8} {n : ℕ} {c : Core ω} {tx : Tx}

def Anything (_ : UInt8) (_ : Bytes) : Prop := True

def OnTty (channel : UInt8) (_ : Bytes) : Prop := channel = chTty

/-- The frames go into the output while the counter goes from `n` to `m`. -/
structure Posts (key : Block) (keyId : UInt8) (P : UInt8 → Bytes → Prop) (n : ℕ) (tx : Tx)
    (out : Core ω × Tx) (fs : List Frame) (m : ℕ) : Prop where
  seals : Seals key keyId P n fs m
  le : m ≤ n+11
  out_eq : out.2.out = tx.out++wires fs
  session : OnSession key keyId out.1.session m

section

variable (h : OnSession key keyId c.session n)
include h

theorem sealTty_rounds : ∃ fs m, Seals key keyId OnTty n fs m ∧ m ≤ n+(c.tty.out.length+199)/200
    ∧ (sealTty c tx).2.1.out = tx.out++wires fs ∧ OnSession key keyId (sealTty c tx).1.session m := by
  refine sealTty_induction (motive:=fun c tx => ∀ n, OnSession key keyId c.session n →
    ∃ fs m, Seals key keyId OnTty n fs m ∧ m ≤ n+(c.tty.out.length+199)/200 ∧
      (sealTty c tx).2.1.out = tx.out++wires fs ∧
      OnSession key keyId (sealTty c tx).1.session m) ?_ ?_ c tx h.isOpen_eq n h
  · intro c tx hstop n h
    rw [sealTty_stop hstop]
    exact ⟨[],n,.done n,by omega,by simp,h⟩
  · intro c tx ho hroom hout ih n h
    have hp := length_pos_iff.mpr hout
    rw [sealTty_step ho hroom hout]
    obtain ⟨fs,m,hseals,hle,hwritten,hsession⟩ := ih (n+1) (by
      rw [sealRound_session ho]
      exact h.next)
    rw [sealRound_out,length_drop] at hle
    have hround : roundWire c = wireOf (sealFrame (sessionAt key keyId n) chTty (c.msgId+1)
        (ttyServiceRead c.tty 200).1) := by
      rw [←h.sealFrame]
      rfl
    refine ⟨_,m,.sent chTty (c.msgId+1) (ttyServiceRead_length c.tty) rfl hseals,by omega,?_,hsession⟩
    rw [hwritten,hround,wires_cons,append_assoc]

theorem sealTty_posts : (sealTty c tx).2.2 = true ∧ ∃ fs m, Posts key keyId OnTty n tx ((sealTty
    c tx).1,(sealTty c tx).2.1) fs m := by
  obtain ⟨fs,m,hseals,hle,hout,hsession⟩ := sealTty_rounds h
  have hr := seal_rounds c.tty
  exact ⟨(sealTty_spec tx h.isOpen_eq).ok,fs,m,hseals,by omega,hout,hsession⟩

theorem onCall_sealed {e : Env ω} (tx : Tx) {payload reply : Bytes} {channel : UInt8} (hr :
    (linkDispatchCall (handlers e) payload linkMaxPayload c.device).2 = some (channel,reply))
    (hpt : reply.length ≤ linkMaxPayload-24) : ∃ c', onCall e c tx payload = (c',txAppend tx
    (some (wireOf (sealFrame (sessionAt key keyId n) channel (c.msgId+1) reply)))) ∧ OnSession
    key keyId c'.session (n+1) := by
  have hdisp : linkDispatchCall (handlers e) payload linkMaxPayload c.device =
      ((linkDispatchCall (handlers e) payload linkMaxPayload c.device).1,some (channel,reply)) :=
    Prod.ext rfl hr
  generalize (linkDispatchCall (handlers e) payload linkMaxPayload c.device).1 = device at hdisp
  have hseal := sealNext_open (c:={ c with device := device }) channel h.isOpen_eq hpt
  have hwire : sealWire c.session channel (c.msgId+1) reply =
      wireOf (sealFrame (sessionAt key keyId n) channel (c.msgId+1) reply) := by
    rw [←h.sealFrame]
    rfl
  refine ⟨(sealNext { c with device := device } channel reply).1,?_,?_⟩
  · rw [onCall,hdisp,←hwire]
    dsimp only
    rw [hseal]
  · rw [hseal]
    exact h.next

theorem onCall_posts (tx : Tx) (payload : Bytes) : ∃ fs m, Posts key keyId (fun channel pt =>
    (linkDispatchCall (handlers e) payload linkMaxPayload c.device).2 = some (channel,pt)) n tx
    ((onCall e c tx payload).1,(onCall e c tx payload).2.1) fs m ∧ fs.length ≤ 1 := by
  obtain ⟨channel,reply,hr,hle⟩ := short_linkDispatchCall payload
  have hpt : reply.length ≤ linkMaxPayload-24 := by simp only [linkMaxPayload]; omega
  obtain ⟨c',hres,hon⟩ := onCall_sealed h tx hr hpt
  rw [hres]
  rcases txAppend_cases tx (wireOf (sealFrame (sessionAt key keyId n) channel (c.msgId+1) reply))
    with ⟨-,happ⟩ | ⟨-,happ⟩
  · rw [happ]
    exact ⟨[],n+1,⟨.spent (.done _),by omega,by simp,hon⟩,by simp⟩
  · rw [happ]
    exact ⟨_,n+1,⟨.sent channel (c.msgId+1) hpt hr (.done _),by omega,by simp,hon⟩,by simp⟩

end

variable (e : Env ω) (sh : Shell (Device ω))

theorem onPlain_tty (h : OnSession key keyId c.session n) (tx : Tx) (hp : plain.channel = chTty) :
    (onPlain e sh c tx plain).2.2 = true ∧ ∃ fs m, Posts key keyId OnTty n tx ((onPlain e sh c
    tx plain).1,(onPlain e sh c tx plain).2.1) fs m := by
  rw [onPlain,if_pos hp]
  exact sealTty_posts (c:={ c with
    tty := (ttyServiceInput sh c.tty c.device plain.body).1
    device := (ttyServiceInput sh c.tty c.device plain.body).2 }) h

/-- An open session answers what is no Hello with sealed frames. -/
theorem onWire_posts (h : OnSession key keyId c.session n) (tx : Tx) (hg : ¬Greets raw) : ∃ fs
    m, Posts key keyId Anything n tx (onWire e sh (c,tx) raw).1 fs m := by
  cases ho : opened c.session raw with
  | none =>
    rw [onWire_dropped hg ho]
    exact ⟨[],n,.done n,by omega,by simp,h⟩
  | some plain =>
    obtain ⟨k,-,hres,-⟩ := onWire_opened e sh tx hg ho
    have hmoved := h.moved k
    rw [hres]
    by_cases htty : plain.channel = chTty
    · obtain ⟨-,fs,m,hposts⟩ := onPlain_tty e sh
        (c:={ c with session := { c.session with rxCounter := k } }) hmoved tx htty
      exact ⟨fs,m,hposts.seals.mono fun _ _ _ => trivial,hposts.le,hposts.out_eq,hposts.session⟩
    rw [onPlain,if_neg htty]
    by_cases hcall : plain.channel ≠ chCall
    · rw [if_pos hcall]
      exact ⟨[],n,.done n,by omega,by simp [asCallback],hmoved⟩
    · rw [if_neg hcall]
      obtain ⟨fs,m,hposts,-⟩ := onCall_posts
        (c:={ c with session := { c.session with rxCounter := k } }) hmoved tx plain.body
      exact ⟨fs,m,hposts.seals.mono fun _ _ _ => trivial,hposts.le,hposts.out_eq,hposts.session⟩

/-- A Hello of this key turns these into session `1`. -/
structure Holds (key : Block) (keyId : UInt8) (s : Session) : Prop where
  key_eq : s.key = key
  keyId_eq : s.keyId = keyId
  txDir_eq : s.txDir = dirDevice

theorem OnSession.holds {s : Session} (h : OnSession key keyId s n) : Holds key keyId s :=
  ⟨h.key_eq,h.keyId_eq,h.txDir_eq⟩

def restarted (s : Session) : Session :=
  { s with session := 1, txCounter := 0, rxCounter := 0, isOpen := true }

theorem Holds.restarted {s : Session} (h : Holds key keyId s) :
    OnSession key keyId (restarted s) 0 :=
  ⟨h.key_eq,h.keyId_eq,rfl,h.txDir_eq,rfl,rfl⟩

theorem Holds.accept {s : Session} (h : Holds key keyId s) (sessionId msgId : UInt16) :
    linkSessionAcceptHello s (hello keyId sessionId msgId) 1 = (BridgeSends.restarted s,true) := by
  rw [linkSessionAcceptHello,helloSession_hello s keyId sessionId msgId h.keyId_eq]
  exact if_pos h.txDir_eq

def greeted (c : Core ω) : Core ω :=
  { c with
    session := restarted c.session
    msgId := c.msgId+1
    tty := ttyServiceOpen c.tty }

section

variable (h : Holds key keyId c.session) (sessionId msgId : UInt16)
include h sessionId msgId

theorem Holds.reply :
    helloReply c.session (c.msgId+1) (hello keyId sessionId msgId) =
      (BridgeSends.restarted c.session,true,some (wireOf (hello keyId 1 (c.msgId+1)))) := by
  have hid : (BridgeSends.restarted c.session).keyId = keyId := h.keyId_eq
  have henc := linkSessionEncodeHello_eq (BridgeSends.restarted c.session) 1 (c.msgId+1)
  rw [hid] at henc
  simp only [helloReply,h.accept]
  rw [←henc]
  rfl

theorem onWire_hello_full
    (hfull : tx.cap < tx.out.length+21) :
    onWire e sh (c,tx) (wireOf (hello keyId sessionId msgId)) =
      (({ c with session := restarted c.session, msgId := c.msgId+1 },tx),false) := by
  have happ : txAppend tx (some (wireOf (hello keyId 1 (c.msgId+1)))) = (tx,false) := by
    rw [txAppend,hello_length,if_pos hfull]
  rw [onWire_greets (hello_whole keyId sessionId msgId).decode (hello_isHello keyId sessionId msgId)]
  simp [onHello,h.reply,happ,asCallback]

theorem onWire_hello_room
    (hroom : tx.out.length+21 ≤ tx.cap) :
    onWire e sh (c,tx) (wireOf (hello keyId sessionId msgId)) = asCallback (sealTty (greeted c)
      { tx with out := tx.out++wireOf (hello keyId 1 (c.msgId+1)) }) := by
  have happ : txAppend tx (some (wireOf (hello keyId 1 (c.msgId+1)))) =
      ({ tx with out := tx.out++wireOf (hello keyId 1 (c.msgId+1)) },true) :=
    txAppend_some (by rwa [hello_length])
  rw [onWire_greets (hello_whole keyId sessionId msgId).decode (hello_isHello keyId sessionId msgId)]
  simp [onHello,h.reply,happ,greeted]

end

/-- It starts session `1` over and stays in the stream, or is answered. -/
theorem onWire_hello (h : Holds key keyId c.session) (tx : Tx) (sessionId msgId : UInt16) :
    onWire e sh (c,tx) (wireOf (hello keyId sessionId msgId)) =
        (({ c with session := restarted c.session, msgId := c.msgId+1 },tx),false) ∨
      ∃ c' tx' fs m, onWire e sh (c,tx) (wireOf (hello keyId sessionId msgId)) = ((c',tx'),true) ∧
        Seals key keyId OnTty 0 fs m ∧ m ≤ 11 ∧
        tx'.out = tx.out++wires (hello keyId 1 (c.msgId+1)::fs) ∧
        OnSession key keyId c'.session m := by
  by_cases hfull : tx.cap < tx.out.length+21
  · exact .inl (onWire_hello_full e sh h sessionId msgId hfull)
  · obtain ⟨hok,fs,m,hposts⟩ := sealTty_posts (c:=greeted c) h.restarted
    rw [onWire_hello_room e sh h sessionId msgId (by omega),asCallback,hok]
    refine .inr ⟨_,_,fs,m,rfl,hposts.seals,by simpa using hposts.le,?_,hposts.session⟩
    rw [hposts.out_eq,wires_cons,append_assoc]

def prompt (key : Block) (keyId : UInt8) (msgId : UInt16) : Frame :=
  sealFrame (sessionAt key keyId 0) chTty msgId (text "ardubot$ ")

theorem onWire_hello_prompt (h : Holds key keyId c.session) (hidle : c.tty.out = []) :
    ∃ c', onWire e sh (c,⟨[],1024⟩) (wireOf (hello keyId 0 1)) =
        ((c',⟨wires [hello keyId 1 (c.msgId+1),prompt key keyId (c.msgId+1+1)],1024⟩),true) ∧
      OnSession key keyId c'.session 1 ∧ c'.session.rxCounter = 0 ∧ c'.tty.out = [] ∧
      c'.device = c.device ∧ c'.msgId = c.msgId+1+1 := by
  have hprompt : (greeted c).tty.out = text "ardubot$ " := by
    simp only [greeted,ttyServiceOpen,ttyPrompt,ttyPuts,hidle]
    decide
  have hread : (ttyServiceRead (greeted c).tty 200).1 = text "ardubot$ " := by
    simp only [ttyServiceRead,hprompt]
    decide
  have hrest : (sealRound (greeted c)).tty.out = [] := by
    rw [sealRound_out,hprompt]
    decide
  have hround : roundWire (greeted c) = wireOf (prompt key keyId (c.msgId+1+1)) := by
    rw [roundWire,hread,prompt,←h.restarted.sealFrame]
    rfl
  have hsession := sealRound_session (c:=greeted c) rfl
  have hroom : linkMaxFrame ≤ 1024-(wireOf (hello keyId 1 (c.msgId+1))).length := by
    rw [hello_length]
    decide
  rw [onWire_hello_room e sh h 0 1 (by simp),nil_append,
    sealTty_step (c:=greeted c) rfl hroom (by rw [hprompt]; decide),
    sealTty_stop (.inr hrest),hround]
  refine ⟨_,?_,?_,?_,hrest,rfl,rfl⟩
  · simp [asCallback]
  · rw [hsession]
    exact h.restarted.next
  · rw [hsession]
    rfl

def polled (b : Bridge ω) (nowMs : UInt32) : Core ω :=
  { b.core with tty := ttyServicePoll sh b.core.tty b.core.device nowMs }

theorem linkBridgePoll_open (ho : b.core.session.isOpen = true)
    (hr : sealTty (polled sh b nowMs) ⟨[],cap⟩ = r) : linkBridgePoll sh b nowMs true cap =
      ⟨⟨b.stream,r.1⟩,r.2.1.out,if r.2.2 then some r.2.1.out.length else none⟩ := by
  rw [linkBridgePoll,if_neg (by simp [ho]),←hr]
  rfl

theorem poll_posts (h : OnSession key keyId b.core.session n) (nowMs : UInt32) (cap : ℕ) : ∃
    core fs m, linkBridgePoll sh b nowMs true cap = ⟨⟨b.stream,core⟩,wires fs,some (wires
    fs).length⟩ ∧ Seals key keyId OnTty n fs m ∧ m ≤ n+11 ∧ OnSession key keyId core.session m := by
  obtain ⟨hok,fs,m,hposts⟩ := sealTty_posts (c:=polled sh b nowMs) h
  have hout : (sealTty (polled sh b nowMs) ⟨[],cap⟩).2.1.out = wires fs := hposts.out_eq
  refine ⟨_,fs,m,?_,hposts.seals,hposts.le,hposts.session⟩
  rw [linkBridgePoll_open sh h.isOpen_eq rfl,hok,if_pos rfl,hout]

theorem poll_quiet (h : b.core.tty = ttyServiceReset) (nowMs : UInt32) (cap : ℕ) :
    linkBridgePoll sh b nowMs true cap = ⟨b,[],some 0⟩ := by
  cases ho : b.core.session.isOpen with
  | false => rw [linkBridgePoll,if_pos (.inl ho)]
  | true =>
    have hpolled : polled sh b nowMs = b.core := by
      have hpoll : ttyServicePoll sh b.core.tty b.core.device nowMs = b.core.tty := by
        rw [h]
        rfl
      rw [polled,hpoll]
    rw [linkBridgePoll_open sh ho rfl,hpolled,sealTty_stop (.inr (by rw [h]; rfl))]
    rfl

end

end TinyDeviceOs.BridgeSends
