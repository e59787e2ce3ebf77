import TinyDeviceOs.BridgeNonces
import TinyDeviceOs.LinkChannel

/-! When `link_bridge_rx` fails, what it has written is discarded and the frame it failed on stays
buffered. That loses nothing only for a Hello behind harmless frames. -/
namespace TinyDeviceOs.BridgeRx

open LittleEndian LinkFrame LinkSession LinkStream LinkChannel LinkDispatch TtyService
open List
  LinkBridge BridgeNonces

variable {ω : Type}

section

variable (tx : Tx)

/-- It only appends, and leaves the device, the window and the flag. -/
structure SealTtySpec (c : Core ω) (tx : Tx) : Prop where
  ok : (sealTty c tx).2.2 = true
  prefix_out : tx.out <+: (sealTty c tx).2.1.out
  cap_eq : (sealTty c tx).2.1.cap = tx.cap
  device_eq : (sealTty c tx).1.device = c.device
  rx_eq : (sealTty c tx).1.session.rxCounter = c.session.rxCounter
  length_le : (sealTty c tx).2.1.out.length ≤ tx.out.length+251*((c.tty.out.length+199)/200)

theorem sealTty_spec (ho : c.session.isOpen = true) : SealTtySpec c tx := by
  refine sealTty_induction (motive:=SealTtySpec) ?_ ?_ c tx ho
  · intro c tx hstop
    have h := sealTty_stop hstop
    constructor <;> rw [h]
    exact Nat.le_add_right _ _
  · intro c tx ho hroom hout ih
    have hp := length_pos_iff.mpr hout
    have hwire := roundWire_length c
    obtain ⟨hok,hpre,hcap,hdev,hrx,hlen⟩ := ih
    rw [← sealTty_step ho hroom hout] at hok hpre hcap hdev hrx hlen
    rw [sealRound_session ho] at hrx
    refine ⟨hok,(prefix_append _ _).trans hpre,hcap,hdev,hrx,hlen.trans ?_⟩
    rw [sealRound_out,length_drop,length_append]
    omega

theorem sealTty_quiet (ho : c.session.isOpen = true) :
    (sealTty c tx).2.1.out = tx.out ↔ tx.cap < tx.out.length+linkMaxFrame ∨ c.tty.out = [] := by
  constructor
  · intro h
    by_contra hgo
    push Not at hgo
    rw [sealTty_step ho (by omega) hgo.2] at h
    have hopen : (sealRound c).session.isOpen = true := by
      rw [sealRound_session ho]
      exact ho
    have hlen := (sealTty_spec { tx with out := tx.out++roundWire c } hopen).prefix_out.length_le
    rw [h,length_append,roundWire_length] at hlen
    omega
  · intro h
    rw [sealTty_stop h]

end

def Greets (raw : Bytes) : Prop := ∃ n f, linkFrameDecode raw = some (n,f) ∧ isHello f

def opened (s : Session) (raw : Bytes) : Option Frame :=
  match linkFrameDecode raw with
  | none => none
  | some (_,f) => (linkSessionOpen s f).2

variable (e : Env ω) (sh : Shell (Device ω))

def asCallback (out : Core ω × Tx × Bool) : (Core ω × Tx) × Bool := ((out.1,out.2.1),out.2.2)

variable {e sh}

theorem onWire_greets (hd : linkFrameDecode raw = some (n,f)) (hh : isHello f) : onWire e sh
    (c,tx) raw = asCallback (onHello c tx f) := by
  simp [onWire,hd,hh,asCallback]

theorem onWire_dropped (hg : ¬Greets raw) (ho : opened c.session raw = none) :
    onWire e sh (c,tx) raw = ((c,tx),true) := by
  cases hd : linkFrameDecode raw with
  | none => simp [onWire,hd]
  | some p =>
    have hh : ¬isHello p.2 := fun hh => hg ⟨p.1,p.2,hd,hh⟩
    have hopen : linkSessionOpen c.session p.2 = (c.session,none) := by
      rcases linkSessionOpen_cases with hno | ⟨-,-,-,plain,hyes⟩
      · exact hno
      · simp [opened,hd,hyes] at ho
    simp [onWire,hd,hh,hopen]

theorem onWire_opened (e : Env ω) (sh : Shell (Device ω)) (tx : Tx)
    (hg : ¬Greets raw) (ho : opened c.session raw = some plain) :
    ∃ k, c.session.isOpen = true ∧
      onWire e sh (c,tx) raw =
        asCallback (onPlain e sh { c with session := { c.session with rxCounter := k } } tx plain) ∧
      ∀ s : Session, s.rxCounter = k → opened s raw = none := by
  cases hd : linkFrameDecode raw with
  | none => simp [opened,hd] at ho
  | some p =>
    have hh : ¬isHello p.2 := fun hh => hg ⟨p.1,p.2,hd,hh⟩
    simp only [opened,hd] at ho
    rcases linkSessionOpen_cases (s:=c.session) (f:=p.2) with hno | ⟨hopen,-,-,plain',hyes⟩
    · simp [hno] at ho
    · simp only [hyes,Option.some.injEq] at ho
      subst ho
      refine ⟨frameCounter p.2,hopen,by simp [onWire,hd,hh,hopen,hyes,asCallback],fun s hs => ?_⟩
      simp only [opened,hd]
      rcases linkSessionOpen_cases (s:=s) (f:=p.2) with hno | ⟨-,-,hlt,-,-⟩
      · rw [hno]
      · rw [hs] at hlt
        exact absurd hlt (UInt64.lt_irrefl _)

/-- What a callback may do to the output. -/
structure Extends (tx tx' : Tx) : Prop where
  prefix_out : tx.out <+: tx'.out
  cap_eq : tx'.cap = tx.cap

variable (tx)

theorem Extends.refl : Extends tx tx := ⟨prefix_refl _,rfl⟩

theorem Extends.trans {a b c : Tx} (h : Extends a b) (h' : Extends b c) : Extends a c :=
  ⟨h.prefix_out.trans h'.prefix_out,h'.cap_eq.trans h.cap_eq⟩

theorem txAppend_cases (w : Bytes) :
    tx.cap < tx.out.length+w.length ∧ txAppend tx (some w) = (tx,false) ∨
      tx.out.length+w.length ≤ tx.cap ∧
        txAppend tx (some w) = ({ tx with out := tx.out++w },true) := by
  by_cases h : tx.cap < tx.out.length+w.length
  · exact .inl ⟨h,by rw [txAppend,if_pos h]⟩
  · exact .inr ⟨by omega,txAppend_some (by omega)⟩

theorem onHello_cases (c : Core ω) (tx : Tx) (f : Frame) :
    (onHello c tx f).1.device = c.device ∧
    (tx.cap < tx.out.length+21 ∧ (onHello c tx f).2 = (tx,false) ∨
      (onHello c tx f).2.2 = true ∧ Extends tx (onHello c tx f).2.1 ∧
        tx.out.length < (onHello c tx f).2.1.out.length ∧
        (onHello c tx f).2.1.out.length ≤ tx.out.length+3012) := by
  obtain ⟨w,hw,hpos,hle⟩ := helloReply_some c.session (c.msgId+1) f
  rcases txAppend_cases tx w with ⟨hfull,happ⟩ | ⟨hfit,happ⟩
  · have hres : onHello c tx f =
        ({ c with session := (helloReply c.session (c.msgId+1) f).1, msgId := c.msgId+1 },tx,false) := by
      simp [onHello,hw,happ]
    exact ⟨by rw [hres],.inl ⟨by omega,by rw [hres]⟩⟩
  · have hext : Extends tx { tx with out := tx.out++w } := ⟨prefix_append _ _,rfl⟩
    rcases linkSessionAcceptHello_cases c.session f 1 with hno | ⟨sid,hyes⟩
    · have hres : onHello c tx f =
          ({ c with session := c.session, msgId := c.msgId+1 },{ tx with out := tx.out++w },true) := by
        simp only [helloReply,hno] at hw
        simp [onHello,helloReply,hno,hw,happ]
      refine ⟨by rw [hres],.inr ?_⟩
      rw [hres]
      refine ⟨rfl,hext,?_,?_⟩ <;> simp only [length_append] <;> omega
    · let c₁ : Core ω := { c with
        session := { c.session with session := sid, txCounter := 0, rxCounter := 0, isOpen := true }
        msgId := c.msgId+1
        tty := ttyServiceOpen c.tty }
      have hres : onHello c tx f = sealTty c₁ { tx with out := tx.out++w } := by
        simp only [helloReply,hyes] at hw
        simp [onHello,helloReply,hyes,hw,happ,c₁]
      have hspec := sealTty_spec (c:=c₁) { tx with out := tx.out++w } rfl
      have hout := (ttyServiceOpen c.tty).out_fits
      have hlen := hspec.prefix_out.length_le
      have hmax := hspec.length_le
      rw [hres]
      refine ⟨hspec.device_eq,.inr ⟨hspec.ok,hext.trans ⟨hspec.prefix_out,hspec.cap_eq⟩,?_,?_⟩⟩
      · simp only [length_append] at hlen
        omega
      · have htty : c₁.tty.out.length < ttyOut := hout
        simp only [length_append,ttyOut] at hmax htty
        omega

theorem onCall_cases (e : Env ω) (ho : c.session.isOpen = true) (tx : Tx) (payload : Bytes) :
    (onCall e c tx payload).1.session.rxCounter = c.session.rxCounter ∧
    (onCall e c tx payload).1.device =
      (linkDispatchCall (handlers e) payload linkMaxPayload c.device).1 ∧
    ∃ w : Bytes, 0 < w.length ∧ w.length ≤ 72 ∧ (onCall e c tx payload).2 = txAppend tx (some w) := by
  obtain ⟨channel,reply,hr,hle⟩ := short_linkDispatchCall payload
  generalize hdev : (linkDispatchCall (handlers e) payload linkMaxPayload c.device).1 = device
  have hdisp : linkDispatchCall (handlers e) payload linkMaxPayload c.device =
      (device,some (channel,reply)) := Prod.ext hdev hr
  have hpt : reply.length ≤ linkMaxPayload-24 := by simp only [linkMaxPayload]; omega
  have hseal := sealNext_open (c:={ c with device := device }) channel ho hpt
  have hw := sealWire_length c.session channel (c.msgId+1) hpt
  have hres : onCall e c tx payload =
      ((sealNext { c with device := device } channel reply).1,
        txAppend tx (sealNext { c with device := device } channel reply).2) := by
    rw [onCall,hdisp]
  rw [hres,hseal]
  exact ⟨rfl,rfl,sealWire c.session channel (c.msgId+1) reply,by omega,by omega,rfl⟩

section

variable (sh : Shell (Device ω))

def typed (c : Core ω) (plain : Frame) : Tty × Device ω :=
  ttyServiceInput sh c.tty c.device plain.body

variable (st : Core ω × Tx)

/-- No Hello, no call, and no terminal frame that does something. -/
def Harmless (raw : Bytes) : Prop :=
  ¬Greets raw ∧ ∀ plain, opened st.1.session raw = some plain →
    plain.channel ≠ chCall ∧
    (plain.channel = chTty → (typed sh st.1 plain).2.calls = st.1.device.calls ∧
      (st.2.cap < st.2.out.length+linkMaxFrame ∨ (typed sh st.1 plain).1.out = []))

structure WireSpec (st : Core ω × Tx) (out : (Core ω × Tx) × Bool) : Prop where
  extends_tx : Extends st.2 out.1.2
  length_le : out.1.2.out.length ≤ st.2.out.length+3012
  ok_of_room : st.2.out.length+linkMaxFrame ≤ st.2.cap → out.2 = true

theorem wireSpec_append {c c' : Core ω} {tx : Tx} {w : Bytes} (hw : w.length ≤ 72) :
    WireSpec (c,tx) (asCallback (c',txAppend tx (some w))) := by
  rcases txAppend_cases tx w with ⟨hfull,happ⟩ | ⟨hfit,happ⟩
  · refine ⟨?_,?_,fun hroom => ?_⟩ <;> simp only [asCallback,happ]
    · exact Extends.refl tx
    · omega
    · simp only [linkMaxFrame,linkHeaderLen,linkMaxPayload] at hroom
      omega
  · refine ⟨?_,?_,fun _ => ?_⟩ <;> simp only [asCallback,happ]
    · exact ⟨prefix_append _ _,rfl⟩
    · simp only [length_append]
      omega

theorem wireSpec_sealTty (ho : c'.session.isOpen = true) : WireSpec (c,tx) (asCallback (sealTty
    c' tx)) := by
  have hspec := sealTty_spec tx ho
  have hout := c'.tty.out_fits
  have hmax := hspec.length_le
  refine ⟨⟨hspec.prefix_out,hspec.cap_eq⟩,?_,fun _ => hspec.ok⟩
  simp only [asCallback,ttyOut] at *
  omega

theorem onWire_spec (raw : Bytes) : WireSpec st (onWire e sh st raw) := by
  obtain ⟨c,tx⟩ := st
  by_cases hg : Greets raw
  · obtain ⟨n,f,hd,hh⟩ := hg
    rw [onWire_greets hd hh]
    obtain ⟨-,⟨hfull,hres⟩ | ⟨hok,hext,-,hle⟩⟩ := onHello_cases c tx f
    · refine ⟨?_,?_,fun hroom => ?_⟩ <;> simp only [asCallback,hres]
      · exact Extends.refl tx
      · omega
      · simp only [linkMaxFrame,linkHeaderLen,linkMaxPayload] at hroom
        omega
    · exact ⟨hext,hle,fun _ => hok⟩
  · cases ho : opened c.session raw with
    | none =>
      rw [onWire_dropped hg ho]
      exact ⟨Extends.refl tx,by simp,fun _ => rfl⟩
    | some plain =>
      obtain ⟨k,hopen,hres,-⟩ := onWire_opened e sh tx hg ho
      rw [hres,onPlain]
      split_ifs with htty hcall
      · exact wireSpec_sealTty tx (by exact hopen)
      · exact ⟨Extends.refl tx,by simp [asCallback],fun _ => rfl⟩
      · obtain ⟨-,-,w,-,hle,hw⟩ := onCall_cases
          (c:={ c with session := { c.session with rxCounter := k } }) e hopen tx plain.body
        rw [asCallback,hw]
        exact wireSpec_append hle

theorem harmless_iff (raw : Bytes) : Harmless sh st raw ↔ (onWire e sh st raw).2 = true ∧
    (onWire e sh st raw).1.2.out = st.2.out ∧ (onWire e sh st raw).1.1.device.calls =
    st.1.device.calls := by
  obtain ⟨c,tx⟩ := st
  by_cases hg : Greets raw
  · refine ⟨fun h => absurd hg h.1,fun h => ?_⟩
    obtain ⟨n,f,hd,hh⟩ := hg
    rw [onWire_greets hd hh] at h
    obtain ⟨-,⟨-,hres⟩ | ⟨-,-,hlt,-⟩⟩ := onHello_cases c tx f
    · simp [asCallback,hres] at h
    · have hout : (onHello c tx f).2.1.out = tx.out := h.2.1
      rw [hout] at hlt
      omega
  · cases ho : opened c.session raw with
    | none =>
      rw [onWire_dropped hg ho]
      simp [Harmless,hg,ho]
    | some plain =>
      obtain ⟨k,hopen,hres,-⟩ := onWire_opened e sh tx hg ho
      rw [hres,onPlain]
      simp only [Harmless,hg,ho,Option.some.injEq,forall_eq',not_false_eq_true,true_and]
      split_ifs with htty hcall
      · let c₁ : Core ω := { c with
          session := { c.session with rxCounter := k }
          tty := (typed sh c plain).1
          device := (typed sh c plain).2 }
        have hspec := sealTty_spec (c:=c₁) tx hopen
        have hquiet := sealTty_quiet (c:=c₁) tx hopen
        have hdev : (sealTty c₁ tx).1.device.calls = (typed sh c plain).2.calls := by
          rw [hspec.device_eq]
        constructor
        · rintro ⟨-,h⟩
          exact ⟨hspec.ok,hquiet.mpr (h htty).2,hdev.trans (h htty).1⟩
        · rintro ⟨-,hout,hcalls⟩
          exact ⟨by rw [htty]; decide,fun _ => ⟨hdev.symm.trans hcalls,hquiet.mp hout⟩⟩
      · simp [htty,hcall,asCallback]
      · obtain ⟨-,-,w,hpos,-,hw⟩ := onCall_cases
          (c:={ c with session := { c.session with rxCounter := k } }) e hopen tx plain.body
        refine ⟨fun h => absurd h.1 hcall,fun h => ?_⟩
        obtain ⟨hok,hout,-⟩ := h
        simp only [asCallback,hw] at hok hout
        rcases txAppend_cases tx w with ⟨-,happ⟩ | ⟨-,happ⟩
        · simp [happ] at hok
        · simp only [happ,append_right_eq_self] at hout
          simp [hout] at hpos

end

/-- Only a Hello or a call fails; the frame of a failed call is a replay. -/
theorem onWire_fails (h : (onWire e sh st raw).2 = false) : Greets raw ∨ ¬Greets raw ∧ opened
    (onWire e sh st raw).1.1.session raw = none := by
  obtain ⟨c,tx⟩ := st
  by_cases hg : Greets raw
  · exact .inl hg
  refine .inr ⟨hg,?_⟩
  cases ho : opened c.session raw with
  | none => simp [onWire_dropped hg ho] at h
  | some plain =>
    obtain ⟨k,hopen,hres,hreplay⟩ := onWire_opened e sh tx hg ho
    rw [hres,onPlain] at h ⊢
    split_ifs at h ⊢ with htty hcall
    · have hspec := sealTty_spec (c:={ c with
        session := { c.session with rxCounter := k }
        tty := (typed sh c plain).1
        device := (typed sh c plain).2 }) tx hopen
      exact absurd (hspec.ok.symm.trans h) (by simp)
    · simp [asCallback] at h
    · obtain ⟨hrx,-⟩ := onCall_cases
        (c:={ c with session := { c.session with rxCounter := k } }) e hopen tx plain.body
      exact hreplay _ hrx

theorem onWire_answers (hg : Greets raw) (hc : linkMaxFrame ≤ cap) : (onWire e sh (c,⟨[],cap⟩)
    raw).2 = true ∧ (onWire e sh (c,⟨[],cap⟩) raw).1.2.out ≠ [] := by
  obtain ⟨n,f,hd,hh⟩ := hg
  rw [onWire_greets hd hh]
  obtain ⟨-,⟨hfull,-⟩ | ⟨hok,-,hlt,-⟩⟩ := onHello_cases c ⟨[],cap⟩ f
  · simp only [linkMaxFrame,linkHeaderLen,linkMaxPayload,length_nil] at hc hfull
    omega
  · refine ⟨hok,fun hnil => ?_⟩
    have hout : (onHello c ⟨[],cap⟩ f).2.1.out = [] := hnil
    simp [hout] at hlt

theorem trace_extends (t : Trace (onWire e sh) st ds st' ok) : Extends st.2 st'.2 ∧ ∀ d ∈ ds,
    Extends (onWire e sh d.1 d.2).1.2 st'.2 := by
  induction t with
  | done st => exact ⟨Extends.refl _,by simp⟩
  | @fail st raw _ =>
    exact ⟨(onWire_spec sh st raw).extends_tx,by simpa using Extends.refl _⟩
  | @next st raw ds st' ok _ _ ih =>
    exact ⟨(onWire_spec sh st raw).extends_tx.trans ih.1,forall_mem_cons.mpr ih⟩

theorem drain_ok_of_room (e : Env ω) (sh : Shell (Device ω)) (buf : Bytes) (st : Core ω × Tx)
    (h : st.2.out.length+3012*buf.length+linkMaxFrame ≤ st.2.cap) :
    (drain (onWire e sh) buf st).2.2 = true := by
  induction buf using IncrementalScan.scan_induction (S:=frameScanner) generalizing st with
  | wait buf hv => rw [drain_wait _ st hv]
  | skip buf hv ih =>
    rw [drain_skip _ st hv]
    refine ih st ?_
    rw [length_tail]
    omega
  | take buf n hv ih =>
    have hspec := onWire_spec (e:=e) sh st (buf.take n)
    have hn := frameScanner.take_pos hv
    have hl := frameScanner.take_le hv
    have hlen := hspec.length_le
    have hcap := hspec.extends_tx.cap_eq
    rw [drain_take _ st hv,if_pos (hspec.ok_of_room (by omega))]
    refine ih _ ?_
    rw [length_drop]
    omega

/-- What one `link_bridge_rx` hands to `on_wire`. -/
def rxDeliveries (e : Env ω) (sh : Shell (Device ω)) (b : Bridge ω) (data : Bytes) (hasTx : Bool)
    (cap : ℕ) : List ((Core ω × Tx) × Bytes) :=
  if hasTx = false ∧ 0 < cap then []
  else deliveries (onWire e sh) (pushBytes b.stream.buf data) (b.core,⟨[],cap⟩)

variable (e sh)

/-- No frame ran a handler, nothing written is lost, and a later call with room goes on. -/
structure AllOrNothing (b : Bridge ω) (data : Bytes) (hasTx : Bool) (cap : ℕ) : Prop where
  no_handler : ∀ d ∈ rxDeliveries e sh b data hasTx cap,
    (onWire e sh d.1 d.2).1.1.device.calls = d.1.1.device.calls
  nothing_lost : (linkBridgeRx e sh b data hasTx cap).written = []
  answered_later : ∃ room, ∀ cap' ≥ room,
    (linkBridgeRx e sh (linkBridgeRx e sh b data hasTx cap).bridge [] true cap').ret.isSome ∧
    ∀ d, (rxDeliveries e sh b data hasTx cap).getLast? = some d →
      (rxDeliveries e sh (linkBridgeRx e sh b data hasTx cap).bridge [] true cap').head? =
        some (((linkBridgeRx e sh b data hasTx cap).bridge.core,⟨[],cap'⟩),d.2) ∧
      (onWire e sh ((linkBridgeRx e sh b data hasTx cap).bridge.core,⟨[],cap'⟩) d.2).1.2.out ≠ []

/-- A Hello behind harmless frames. -/
def Excused (b : Bridge ω) (data : Bytes) (hasTx : Bool) (cap : ℕ) : Prop :=
  ∀ init last, rxDeliveries e sh b data hasTx cap = init++[last] →
    (∀ d ∈ init, Harmless sh d.1 d.2) ∧ Greets last.2

variable {e sh}

theorem pushBytes_nil : pushBytes buf [] = buf := rfl

theorem rx_retry_ok (h : 3012*b.stream.buf.length+linkMaxFrame ≤ cap) : (linkBridgeRx e sh b []
    true cap).ret.isSome := by
  have hok := drain_ok_of_room e sh b.stream.buf (b.core,⟨[],cap⟩) (by simpa using h)
  simp [linkBridgeRx,linkStreamPush,pushBytes_nil,hok]

theorem rx_fail_cases (hr : linkBridgeRx e sh b data hasTx cap = r) (h : r.ret = none) :
    rxDeliveries e sh b data hasTx cap = [] ∧ r.written = [] ∨
    ∃ init last n, rxDeliveries e sh b data hasTx cap = init++[last] ∧
      Trace (onWire e sh) (b.core,⟨[],cap⟩) init last.1 true ∧
      (onWire e sh last.1 last.2).2 = false ∧ r.bridge.core = (onWire e sh last.1 last.2).1.1 ∧
      r.written = (onWire e sh last.1 last.2).1.2.out ∧
      frameVerdict r.bridge.stream.buf = .take n ∧ r.bridge.stream.buf.take n = last.2 := by
  subst hr
  by_cases hn : hasTx = false ∧ 0 < cap
  · exact .inl (by simp [rxDeliveries,linkBridgeRx,hn])
  · rw [linkBridgeRx,if_neg hn] at h ⊢
    rw [rxDeliveries,if_neg hn]
    cases hok : (drain (onWire e sh) (pushBytes b.stream.buf data) (b.core,⟨[],cap⟩)).2.2 with
    | true => simp [linkStreamPush,hok] at h
    | false =>
      obtain ⟨init,last,n,hds,ht,hf,hst,hv,htake⟩ := drain_fail hok
      exact .inr ⟨init,last,n,hds,ht,hf,congrArg Prod.fst hst,
        congrArg (fun st => st.2.out) hst,hv,htake⟩

theorem rx_retry_head (hv : frameVerdict b.stream.buf = .take n) : (rxDeliveries e sh b [] true
    cap).head? = some ((b.core,⟨[],cap⟩),b.stream.buf.take n) := by
  simp [rxDeliveries,pushBytes_nil,deliveries_take _ hv]

theorem Extends.out_nil {tx tx' : Tx} (h : Extends tx tx') (ho : tx'.out = []) : tx.out = [] :=
  prefix_nil.mp (ho▸h.prefix_out)

theorem trace_harmless_iff (t : Trace (onWire e sh) st ds st' true) (h : st.2.out = []) : (∀ d ∈
    ds, Harmless sh d.1 d.2) ↔ st'.2.out = [] ∧ ∀ d ∈ ds, (onWire e sh d.1 d.2).1.1.device.calls
    = d.1.1.device.calls := by
  constructor
  · intro hh
    have hspec := fun d hd => (harmless_iff (e:=e) sh d.1 d.2).mp (hh d hd)
    refine ⟨?_,fun d hd => (hspec d hd).2.2⟩
    refine t.preserves (P:=fun st => st.2.out = []) ?_ h
    intro d hd hout
    rw [(hspec d hd).2.1,hout]
  · rintro ⟨hout,hcalls⟩ d hd
    have hafter := ((trace_extends t).2 d hd).out_nil hout
    have hbefore := (onWire_spec sh d.1 d.2).extends_tx.out_nil hafter
    exact (harmless_iff sh d.1 d.2).mpr
      ⟨t.all_ok rfl d hd,by rw [hafter,hbefore],hcalls d hd⟩

theorem onWire_greets_fails (hg : Greets raw) (hf : (onWire e sh st raw).2 = false) : (onWire e
    sh st raw).1.2 = st.2 ∧ (onWire e sh st raw).1.1.device.calls = st.1.device.calls := by
  obtain ⟨c,tx⟩ := st
  obtain ⟨n,f,hd,hh⟩ := hg
  rw [onWire_greets hd hh] at hf ⊢
  obtain ⟨hdev,⟨-,hres⟩ | ⟨hok,-⟩⟩ := onHello_cases c tx f
  · exact ⟨congrArg Prod.fst hres,congrArg Device.calls hdev⟩
  · exact absurd hf (by simp [asCallback,hok])

section

theorem rx_one_frame (hbuf : b.stream.buf = []) (hl : data.length ≤ linkMaxFrame)
    (hd : linkFrameDecode data = some (data.length,f))
    (hf : (onWire e sh (b.core,⟨[],cap⟩) data).2 = false) :
    rxDeliveries e sh b data true cap = [((b.core,⟨[],cap⟩),data)] ∧
      (linkBridgeRx e sh b data true cap).ret = none ∧
      (linkBridgeRx e sh b data true cap).bridge.core =
        (onWire e sh (b.core,⟨[],cap⟩) data).1.1 := by
  have hpush : pushBytes b.stream.buf data = data := by
    rw [pushBytes_eq_append (by simpa [hbuf] using hl),hbuf,nil_append]
  have hv := frameVerdict_of_decode hd
  simp [rxDeliveries,linkBridgeRx,linkStreamPush,hpush,deliveries_take _ hv,drain_take _ _ hv,hf]

theorem onWire_call_full (e : Env ω) (sh : Shell (Device ω)) (c : Core ω) (s : Session) (msgId :
    UInt16) (hk : c.session.key = s.key) (hid : c.session.keyId = s.keyId) (hs :
    c.session.session = s.session) (hdir : peerDirection c.session.txDir = s.txDir) (ho :
    c.session.isOpen = true) (hpt : pt.length ≤ linkMaxPayload-24) (hnew : ¬(s.txCounter+1 = 0 ∨
    s.txCounter+1 ≤ c.session.rxCounter)) : (onWire e sh (c,⟨[],0⟩) (sealWire s chCall msgId
    pt)).2 = false ∧ (onWire e sh (c,⟨[],0⟩) (sealWire s chCall msgId pt)).1.1.device =
    (linkDispatchCall (handlers e) pt linkMaxPayload c.device).1 := by
  have hd := linkFrameDecode_sealWire s chCall msgId hpt
  have hopen := linkSessionOpen_sealFrame s chCall msgId hk hid hs hdir ho hpt
  rw [if_neg hnew] at hopen
  obtain ⟨-,hdev,w,hw,-,hres⟩ := onCall_cases (c:={ c with
    session := { c.session with rxCounter := s.txCounter+1 } }) e ho ⟨[],0⟩ pt
  have hwire : onWire e sh (c,⟨[],0⟩) (sealWire s chCall msgId pt) =
      asCallback (onCall e { c with session := { c.session with rxCounter := s.txCounter+1 } }
        ⟨[],0⟩ pt) := by
    simp only [onWire,hd,not_isHello_sealFrame,if_false,ho,Bool.true_eq_false,hopen,onPlain,
      Frame.ofBody_body (show pt.length ≤ linkMaxPayload by omega)]
    rfl
  rw [hwire]
  refine ⟨?_,hdev⟩
  rw [asCallback,hres,txAppend,if_pos (by simpa using hw)]

def keyUpCall : Bytes := [tagMethod,1,methodKey,tagText,2,117,112,tagPressed,1,1]

theorem dispatch_keyUpCall : (linkDispatchCall (handlers quietEnv) keyUpCall linkMaxPayload
    d).1.calls = .key (text "up") true::d.calls ∧ (linkDispatchCall (handlers quietEnv)
    keyUpCall linkMaxPayload d).2 = some (chResult,[1,1,0]) := by
  have hm : linkTlvGet tagMethod 1 keyUpCall = some [methodKey] := by decide +kernel
  have hn : copyNonempty keyUpCall tagText 160 = some (text "up") := by decide +kernel
  have hp : byteField keyUpCall tagPressed 1 = 1 := by decide +kernel
  have hup : keyFromName (text "up") = some keyUp := by decide
  have hok : putOk linkMaxPayload = some (chResult,[1,1,0]) := by decide +kernel
  rw [linkDispatchCall,hm]
  simp [methodKey,methodNotify,methodMessage,methodEvent,dispatchKey,handlers,hn,hp,
    LinkBridge.onKey,hup,Device.note,hok]

theorem rx_keyUpCall_full {b : Bridge Unit} (hbuf : b.stream.buf = [])
    (hs : b.core.session = { deviceOpen with txCounter := 1 }) :
    (linkBridgeRx quietEnv quietShell b (sealWire hostOpen chCall 2 keyUpCall) true 0).ret = none ∧
    (linkBridgeRx quietEnv quietShell b (sealWire hostOpen chCall 2 keyUpCall) true 0
      ).bridge.core.device.calls = .key (text "up") true::b.core.device.calls ∧
    ¬AllOrNothing quietEnv quietShell b (sealWire hostOpen chCall 2 keyUpCall) true 0 := by
  have hpt : keyUpCall.length ≤ linkMaxPayload-24 := by decide
  have hlen := sealWire_length hostOpen chCall 2 hpt
  obtain ⟨hf,hdev⟩ := onWire_call_full quietEnv quietShell b.core hostOpen 2
    (by rw [hs]; rfl) (by rw [hs]; rfl) (by rw [hs]; rfl) (by rw [hs]; rfl)
    (by rw [hs]; rfl) hpt (by rw [hs]; decide)
  obtain ⟨hds,hret,hcore⟩ := rx_one_frame hbuf (by rw [hlen]; decide)
    (linkFrameDecode_sealWire hostOpen chCall 2 hpt) hf
  have hcalls := (congrArg Device.calls hdev).trans dispatch_keyUpCall.1
  refine ⟨hret,by rw [hcore,hcalls],fun hall => ?_⟩
  have hsame := hall.no_handler _ (hds▸mem_cons_self)
  rw [hcalls] at hsame
  simp at hsame

end

end TinyDeviceOs.BridgeRx
