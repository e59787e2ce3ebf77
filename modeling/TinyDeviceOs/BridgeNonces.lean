import TinyDeviceOs.LinkBridge

/-! Nonces of the device. The session id is always `1` and an accepted Hello sets the counter back,
so nonces differ exactly as long as no Hello comes after the first seal. -/
namespace TinyDeviceOs.BridgeNonces

open LittleEndian LinkFrame LinkCrypto LinkSession LinkStream LinkDispatch TtyService LinkBridge
open List

variable {ω : Type}

structure NonceInv (c : Core ω) : Prop where
  device : c.session.txDir = dirDevice
  used : ∀ n ∈ c.nonces, ∃ k, k ≠ 0 ∧ k ≤ c.session.txCounter ∧ n = nonceFor c.session dirDevice k
  nodup : c.nonces.Nodup

variable {c : Core ω}

theorem NonceInv.congr {d : Core ω} (h : NonceInv c) (hn : d.nonces = c.nonces)
    (hdir : d.session.txDir = c.session.txDir) (hk : d.session.keyId = c.session.keyId)
    (hs : d.session.session = c.session.session)
    (hc : d.session.txCounter = c.session.txCounter) : NonceInv d := by
  refine ⟨hdir.trans h.device,?_,hn ▸ h.nodup⟩
  intro n hmem
  obtain ⟨k,h0,hle,rfl⟩ := h.used n (hn ▸ hmem)
  exact ⟨k,h0,hc ▸ hle,nonceFor_inj.mpr ⟨rfl,hk.symm,hs.symm,rfl⟩⟩

theorem NonceInv.nonces_nil (h : NonceInv c) (h0 : c.session.txCounter = 0) :
    c.nonces = [] := by
  refine eq_nil_iff_forall_not_mem.mpr fun n hn => ?_
  obtain ⟨k,hk,hle,-⟩ := h.used n hn
  rw [h0] at hle
  exact hk (UInt64.le_antisymm hle UInt64.zero_le)

theorem NonceInv.sealNext (h : NonceInv c) (channel : UInt8) (pt : Bytes)
    (hroom : c.session.txCounter.toNat+1 < 2^64) : NonceInv (sealNext c channel pt).1 := by
  have hnext := counter_succ hroom
  obtain ⟨k,hsess,hcases⟩ := linkSessionSeal_frame channel pt c.session (c.msgId+1) linkMaxFrame
  rcases hcases with ⟨rfl,hnone⟩ | rfl
  · exact h.congr (by simp [LinkBridge.sealNext,hnone]) (by simp [LinkBridge.sealNext,hsess])
      (by simp [LinkBridge.sealNext,hsess]) (by simp [LinkBridge.sealNext,hsess])
      (by simp [LinkBridge.sealNext,hsess])
  have hstep : NonceInv { c with session := { c.session with txCounter := c.session.txCounter+1 } } := by
    refine ⟨h.device,?_,h.nodup⟩
    intro n hn
    obtain ⟨k,h0,hle,rfl⟩ := h.used n hn
    refine ⟨k,h0,?_,rfl⟩
    rw [UInt64.le_iff_toNat_le] at hle ⊢
    change k.toNat ≤ (c.session.txCounter+1).toNat
    omega
  cases hw : (linkSessionSeal c.session channel (c.msgId+1) pt linkMaxFrame).2 with
  | none =>
    exact hstep.congr (by simp [LinkBridge.sealNext,hw]) (by simp [LinkBridge.sealNext,hsess])
      (by simp [LinkBridge.sealNext,hsess]) (by simp [LinkBridge.sealNext,hsess])
      (by simp [LinkBridge.sealNext,hsess])
  | some wire =>
    have hnew : nonceFor c.session dirDevice (c.session.txCounter+1) ∉ c.nonces := by
      intro hmem
      obtain ⟨k,-,hle,heq⟩ := h.used _ hmem
      have hk := (nonceFor_inj.mp heq).2.2.2
      rw [UInt64.le_iff_toNat_le,← hk,hnext] at hle
      omega
    have hlog : (LinkBridge.sealNext c channel pt).1.nonces =
        nonceFor c.session dirDevice (c.session.txCounter+1)::c.nonces := by
      simp [LinkBridge.sealNext,hw,hsess,h.device,nonceFor]
    have hsession : (LinkBridge.sealNext c channel pt).1.session =
        { c.session with txCounter := c.session.txCounter+1 } := hsess
    refine ⟨by rw [hsession]; exact h.device,?_,by rw [hlog]; exact nodup_cons.mpr ⟨hnew,h.nodup⟩⟩
    intro n hn
    rw [hlog,mem_cons] at hn
    rw [hsession]
    rcases hn with rfl | hn
    · refine ⟨c.session.txCounter+1,?_,UInt64.le_refl _,rfl⟩
      intro h0
      rw [h0] at hnext
      simp at hnext
    · exact hstep.used n hn

theorem NonceInv.sealTty (tx : Tx) (ho : c.session.isOpen = true) (h : NonceInv c)
    (hroom : c.session.txCounter.toNat+(c.tty.out.length+199)/200 < 2^64) :
    NonceInv (sealTty c tx).1 := by
  refine sealTty_induction (motive:=fun c tx => NonceInv c →
    c.session.txCounter.toNat+(c.tty.out.length+199)/200 < 2^64 → NonceInv (LinkBridge.sealTty c tx).1)
    ?_ ?_ c tx ho h hroom
  · intro c tx hstop h _
    rwa [sealTty_stop hstop]
  · intro c tx ho hr hout ih h hroom
    have hp := length_pos_iff.mpr hout
    have hread : NonceInv { c with tty := (ttyServiceRead c.tty 200).2 } :=
      h.congr rfl rfl rfl rfl rfl
    have hnext := counter_succ (c:=c.session.txCounter) (by omega)
    rw [sealTty_step ho hr hout]
    refine ih (hread.sealNext _ _ (by change c.session.txCounter.toNat+1 < 2^64; omega)) ?_
    rw [sealRound_session ho,sealRound_out,length_drop]
    change (c.session.txCounter+1).toNat+_ < 2^64
    omega

/-- A Hello comes before the first seal, and the counter does not wrap. -/
def SafeFrame (c : Core ω) (raw : Bytes) : Prop :=
  (∀ n f, linkFrameDecode raw = some (n,f) → isHello f →
    (linkSessionAcceptHello c.session f 1).2 = true → c.session.txCounter = 0) ∧
    c.session.txCounter.toNat+11 < 2^64


theorem seal_rounds (t : Tty) : (t.out.length+199)/200 ≤ 11 := by
  have h := t.out_fits
  simp only [ttyOut] at h
  omega

variable (e : Env ω) (sh : Shell (Device ω))

theorem NonceInv.onHello (h : NonceInv c) (tx : Tx) (hs : (linkSessionAcceptHello c.session f
    1).2 = true → c.session.txCounter = 0) : NonceInv (onHello c tx f).1 := by
  rcases linkSessionAcceptHello_cases c.session f 1 with hno | ⟨sid,hyes⟩
  · simp only [LinkBridge.onHello,helloReply,hno]
    exact h.congr rfl rfl rfl rfl rfl
  · have hnil := h.nonces_nil (hs (by rw [hyes]))
    have hfresh (d : Core ω) (hd : d.session =
        { c.session with session := sid, txCounter := 0, rxCounter := 0, isOpen := true })
        (hn : d.nonces = c.nonces) : NonceInv d :=
      ⟨by rw [hd]; exact h.device,by simp [hn,hnil],by simp [hn,hnil]⟩
    simp only [LinkBridge.onHello,helloReply,hyes]
    split_ifs
    · refine NonceInv.sealTty _ rfl (hfresh _ rfl rfl) ?_
      have hr := seal_rounds (ttyServiceOpen c.tty)
      change (0 : UInt64).toNat+((ttyServiceOpen c.tty).out.length+199)/200 < 2^64
      simp only [UInt64.reduceToNat]
      omega
    · exact hfresh _ rfl rfl

theorem NonceInv.onPlain (h : NonceInv c) (ho : c.session.isOpen = true)
    (hroom : c.session.txCounter.toNat+11 < 2^64) (tx : Tx) (plain : Frame) :
    NonceInv (onPlain e sh c tx plain).1 := by
  simp only [LinkBridge.onPlain]
  split_ifs with htty hcall
  · have hr := seal_rounds (ttyServiceInput sh c.tty c.device plain.body).1
    refine NonceInv.sealTty tx (by exact ho) (h.congr rfl rfl rfl rfl rfl) ?_
    change c.session.txCounter.toNat+
      ((ttyServiceInput sh c.tty c.device plain.body).1.out.length+199)/200 < 2^64
    omega
  · exact h
  · simp only [onCall]
    split
    · exact h.congr rfl rfl rfl rfl rfl
    · rename_i device channel reply _
      have hd : NonceInv { c with device := device } := h.congr rfl rfl rfl rfl rfl
      exact hd.sealNext channel reply (by change c.session.txCounter.toNat+1 < 2^64; omega)

theorem NonceInv.onWire (h : NonceInv st.1) (hs : SafeFrame st.1 raw) : NonceInv (onWire e sh st
    raw).1.1 := by
  obtain ⟨c,tx⟩ := st
  simp only [LinkBridge.onWire]
  cases hdec : linkFrameDecode raw with
  | none => exact h
  | some p =>
    obtain ⟨n,f⟩ := p
    simp only
    split_ifs with hhello hclosed
    · exact h.onHello tx (hs.1 n f hdec hhello)
    · exact h
    · rcases linkSessionOpen_cases with hno | ⟨ho,-,-,plain,hyes⟩
      · rw [hno]
        exact h.congr rfl rfl rfl rfl rfl
      · rw [hyes]
        have hopened : NonceInv { c with session :=
            { c.session with rxCounter := frameCounter f } } := h.congr rfl rfl rfl rfl rfl
        exact hopened.onPlain e sh ho hs.2 tx plain

/-- The two entry points of the bridge. -/
inductive Op
  | rx (data : Bytes) (hasTx : Bool) (cap : ℕ)
  | poll (nowMs : UInt32) (hasTx : Bool) (cap : ℕ)

def step (b : Bridge ω) : Op → Bridge ω
  | .rx data hasTx cap => (linkBridgeRx e sh b data hasTx cap).bridge
  | .poll nowMs hasTx cap => (linkBridgePoll sh b nowMs hasTx cap).bridge

def SafeStep (b : Bridge ω) : Op → Prop
  | .rx data _ cap => ∀ d ∈ deliveries (onWire e sh) (pushBytes b.stream.buf data) (b.core,⟨[],cap⟩),
      SafeFrame d.1.1 d.2
  | .poll _ _ _ => b.core.session.txCounter.toNat+11 < 2^64

def SafeRun : Bridge ω → List Op → Prop
  | _, [] => True
  | b, op::ops => SafeStep e sh b op ∧ SafeRun (step e sh b op) ops

theorem NonceInv.step (h : NonceInv b.core) (hs : SafeStep e sh b op) : NonceInv (step e sh b
    op).core := by
  cases op with
  | rx data hasTx cap =>
    rw [BridgeNonces.step,linkBridgeRx]
    by_cases hnull : hasTx = false ∧ 0 < cap
    · rwa [if_pos hnull]
    · rw [if_neg hnull]
      have ht := drain_trace (LinkBridge.onWire e sh) (pushBytes b.stream.buf data)
        (b.core,⟨[],cap⟩)
      exact ht.preserves (P:=fun st => NonceInv st.1)
        (fun d hd hinv => hinv.onWire e sh (hs d hd)) h
  | poll nowMs hasTx cap =>
    rw [BridgeNonces.step,linkBridgePoll]
    by_cases hc : b.core.session.isOpen = false ∨ hasTx = false
    · rwa [if_pos hc]
    · rw [if_neg hc]
      push Not at hc
      have hr := seal_rounds (ttyServicePoll sh b.core.tty b.core.device nowMs)
      have hroom : b.core.session.txCounter.toNat+11 < 2^64 := hs
      have hpolled : NonceInv { b.core with
        tty := ttyServicePoll sh b.core.tty b.core.device nowMs } := h.congr rfl rfl rfl rfl rfl
      refine hpolled.sealTty _ (by simpa using hc.1) ?_
      change b.core.session.txCounter.toNat+
        ((ttyServicePoll sh b.core.tty b.core.device nowMs).out.length+199)/200 < 2^64
      omega

theorem NonceInv.run (h : NonceInv b.core) (hs : SafeRun e sh b ops) : NonceInv (ops.foldl
    (BridgeNonces.step e sh) b).core := by
  induction ops generalizing b with
  | nil => exact h
  | cons op ops ih => exact ih (h.step e sh hs.1) hs.2

section

def helloFrame : Frame := Frame.ofBody linkVersion 0 chHello 1 [1,1,1,2,1,1,3,2,0,0]

def hostHello : Bytes := (linkFrameEncode helloFrame linkMaxFrame).getD []

theorem hostHello_verdict : frameVerdict hostHello = .take 21 := by decide +kernel

theorem hostHello_length : hostHello.length = 21 := by decide +kernel

theorem linkFrameDecode_hostHello : linkFrameDecode hostHello = some (21,helloFrame) := by
  decide +kernel

theorem accept_helloFrame (hk : s.keyId = 1) (hd : s.txDir = dirDevice) :
    linkSessionAcceptHello s helloFrame 1 =
      ({ s with session := 1, txCounter := 0, rxCounter := 0, isOpen := true },true) := by
  have hs : helloSession s helloFrame = some 0 := by
    rw [helloSession,hk]
    decide +kernel
  rw [linkSessionAcceptHello,hs]
  simp [hd]

variable {b : Bridge ω}

theorem onWire_hostHello (hk : c.session.keyId = 1) (hd : c.session.txDir = dirDevice)
    (hout : c.tty.out = []) :
    ∃ c' tx, onWire e sh (c,⟨[],1024⟩) hostHello = ((c',tx),true) ∧
      c'.session = { c.session with session := 1, txCounter := 1, rxCounter := 0, isOpen := true } ∧
      c'.tty.out = [] ∧ c'.nonces = nonceFor c'.session dirDevice 1::c.nonces := by
  have hacc := accept_helloFrame hk hd
  obtain ⟨hello,hh,hlen⟩ := linkSessionEncodeHello_some
    { c.session with session := 1, txCounter := 0, rxCounter := 0, isOpen := true } 1 (c.msgId+1)
  have happ : txAppend ⟨[],1024⟩ (some hello) = (⟨hello,1024⟩,true) :=
    txAppend_some (by rw [hlen]; decide)
  have hprompt : (ttyServiceOpen c.tty).out = text "ardubot$ " := by
    simp only [ttyServiceOpen,ttyPrompt,ttyPuts,hout]
    decide
  let c₁ : Core ω := { c with
    session := { c.session with session := 1, txCounter := 0, rxCounter := 0, isOpen := true }
    msgId := c.msgId+1
    tty := ttyServiceOpen c.tty }
  have hopen : onWire e sh (c,⟨[],1024⟩) hostHello =
      (((sealTty c₁ ⟨hello,1024⟩).1,(sealTty c₁ ⟨hello,1024⟩).2.1),(sealTty c₁ ⟨hello,1024⟩).2.2) := by
    simp only [onWire,linkFrameDecode_hostHello,show isHello helloFrame from by decide,if_true,
      LinkBridge.onHello,helloReply,hacc,hh,happ,and_self]
    rfl
  have hrest : (sealRound c₁).tty.out = [] := by
    rw [sealRound_out]
    simp only [c₁,hprompt]
    decide
  rw [sealTty_step (c:=c₁) rfl (by simp only [hlen]; decide) (by simp only [c₁,hprompt]; decide),
    sealTty_stop (.inr hrest)] at hopen
  refine ⟨_,_,hopen,sealRound_session rfl,hrest,?_⟩
  rw [sealRound_nonces rfl]
  simp only [c₁,hd]
  rfl

section

variable (hbuf : b.stream.buf = []) (hk : b.core.session.keyId = 1)
  (hd : b.core.session.txDir = dirDevice) (hout : b.core.tty.out = [])
include hbuf hk hd hout

theorem rx_hostHello (hr : step e sh b (.rx hostHello true 1024) = b') :
    b'.stream.buf = [] ∧ b'.core.session =
      { b.core.session with session := 1, txCounter := 1, rxCounter := 0, isOpen := true } ∧
    b'.core.tty.out = [] ∧
    b'.core.nonces = nonceFor b'.core.session dirDevice 1::b.core.nonces := by
  obtain ⟨c,tx,hw,hs,ho,hn⟩ := onWire_hostHello e sh hk hd hout
  have hpush : pushBytes b.stream.buf hostHello = hostHello := by
    rw [pushBytes_eq_append (by rw [hbuf,hostHello_length]; decide),hbuf,nil_append]
  have htake : hostHello.take 21 = hostHello := take_of_length_le hostHello_length.le
  have hdrain : drain (onWire e sh) (pushBytes b.stream.buf hostHello) (b.core,⟨[],1024⟩) =
      ([],(c,tx),true) := by
    rw [hpush,drain_take _ _ hostHello_verdict,htake,hw,
      drop_of_length_le hostHello_length.le]
    exact drain_wait _ _ rfl
  simp only [←hr,step,linkBridgeRx,linkStreamPush,hdrain]
  exact ⟨rfl,hs,ho,hn⟩

theorem rx_hostHello_twice :
    ∃ n, (step e sh (step e sh b (.rx hostHello true 1024)) (.rx hostHello true 1024)).core.nonces =
      n::n::b.core.nonces := by
  generalize hr : step e sh b (.rx hostHello true 1024) = b₁
  obtain ⟨hb,hs,ho,hn⟩ := rx_hostHello e sh hbuf hk hd hout hr
  obtain ⟨-,hs',-,hn'⟩ := rx_hostHello e sh hb (by rw [hs]; exact hk)
    (by rw [hs]; exact hd) ho rfl
  refine ⟨nonceFor b₁.core.session dirDevice 1,?_⟩
  rw [hn',hn]
  congr 1
  exact nonceFor_inj.mpr ⟨rfl,by rw [hs'],by rw [hs',hs],rfl⟩

end

end

def quietEnv : Env Unit where
  notifyPost _ _ _ _ w := (w,0)
  appFind _ _ := false
  eventPublish _ _ w := (w,0)
  handleKey _ _ w := w

def quietShell : Shell (Device Unit) := ⟨fun _ s => s,fun _ d => d,fun _ => []⟩

end TinyDeviceOs.BridgeNonces
