import TinyDeviceOs.LinkSession

/-! The channel between two open sessions of one handshake. The network hands over any sealed
frames, in any order and any number of times. -/
namespace TinyDeviceOs.LinkChannel

open LittleEndian LinkFrame LinkSession

structure Message where
  channel : UInt8
  msgId : UInt16
  text : Bytes
  fits : text.length ≤ linkMaxPayload-24

structure Sealed where
  message : Message
  counter : UInt64
  wire : Bytes

def sealAll : Session → List Message → List Sealed
  | _, [] => []
  | s, m::ms =>
    match linkSessionSeal s m.channel m.msgId m.text linkMaxFrame with
    | (next,none) => sealAll next ms
    | (next,some wire) => ⟨m,next.txCounter,wire⟩::sealAll next ms

def deliver (r : Session) (wire : Bytes) : Session × Option Frame :=
  match linkFrameDecode wire with
  | none => (r,none)
  | some (_,f) => linkSessionOpen r f

def receive (st : Session × List Sealed) (d : Sealed) : Session × List Sealed :=
  ((deliver st.1 d.wire).1,if (deliver st.1 d.wire).2.isSome then d::st.2 else st.2)

structure Paired (s r : Session) : Prop where
  key : r.key = s.key
  keyId : r.keyId = s.keyId
  session : r.session = s.session
  opposite : s.txDir = dirHost ∧ r.txDir = dirDevice ∨ s.txDir = dirDevice ∧ r.txDir = dirHost
  sender_open : s.isOpen = true
  receiver_open : r.isOpen = true
  sender_fresh : s.txCounter = 0 ∧ s.rxCounter = 0
  receiver_fresh : r.txCounter = 0 ∧ r.rxCounter = 0

theorem Paired.direction (h : Paired s r) : peerDirection r.txDir = s.txDir := by
  rcases h.opposite with ⟨hs,hr⟩ | ⟨hs,hr⟩ <;> rw [hs,hr] <;> rfl

theorem sealAll_cons (ho : s.isOpen = true) :
    sealAll s (m::ms) = ⟨m,s.txCounter+1,sealWire s m.channel m.msgId m.text⟩::
      sealAll { s with txCounter := s.txCounter+1 } ms := by
  rw [sealAll,linkSessionSeal_open m.channel m.msgId ho m.fits]

theorem sealAll_append (ho : s.isOpen = true) :
    sealAll s (ms++ns) = sealAll s ms++
      sealAll { s with txCounter := s.txCounter+UInt64.ofNat ms.length } ns := by
  induction ms generalizing s with
  | nil => simp [sealAll]
  | cons m ms ih =>
    rw [List.cons_append,sealAll_cons ho,sealAll_cons ho,
      ih (s:={ s with txCounter := s.txCounter+1 }) ho]
    have hc : s.txCounter+1+UInt64.ofNat ms.length = s.txCounter+UInt64.ofNat (ms.length+1) := by
      rw [UInt64.ofNat_add,add_assoc,add_comm 1]
      rfl
    simp [hc]

theorem mem_sealAll (ho : s.isOpen = true) (h : d ∈ sealAll s ms) :
    ∃ c : UInt64, d.counter = c+1 ∧ d.wire = sealWire { s with txCounter := c }
      d.message.channel d.message.msgId d.message.text := by
  induction ms generalizing s with
  | nil => simp [sealAll] at h
  | cons m ms ih =>
    rw [sealAll_cons ho,List.mem_cons] at h
    rcases h with rfl | h
    · exact ⟨s.txCounter,rfl,rfl⟩
    · exact ih (s:={ s with txCounter := s.txCounter+1 }) ho h

/-- Whatever the receiver has seen before. -/
theorem deliver_sealed (h : Paired s r) (hd : d ∈ sealAll s ms) (rx : UInt64) :
    deliver { r with rxCounter := rx } d.wire =
      if d.counter = 0 ∨ d.counter ≤ rx then ({ r with rxCounter := rx },none)
      else ({ r with rxCounter := d.counter },
        some (Frame.ofBody linkVersion 0 d.message.channel d.message.msgId d.message.text)) := by
  obtain ⟨c,hc,hw⟩ := mem_sealAll h.sender_open hd
  rw [deliver,hw,linkFrameDecode_sealWire _ _ _ d.message.fits]
  have hopen := linkSessionOpen_sealFrame { s with txCounter := c } d.message.channel d.message.msgId
    (r:={ r with rxCounter := rx }) h.key h.keyId h.session h.direction h.receiver_open d.message.fits
  simpa only [hc] using hopen

/-- The window is the largest accepted counter. -/
structure Window (r : Session) (st : Session × List Sealed) : Prop where
  session_eq : st.1 = { r with rxCounter := st.1.rxCounter }
  accepted_le : ∀ e ∈ st.2, e.counter ≤ st.1.rxCounter
  attained : st.1.rxCounter = 0 ∨ ∃ e ∈ st.2, e.counter = st.1.rxCounter

theorem Window.init (h : Paired s r) : Window r (r,[]) :=
  ⟨rfl,by simp,.inl h.receiver_fresh.2⟩

theorem Window.rejects_iff (w : Window r st) : c = 0 ∨ c ≤ st.1.rxCounter ↔ ¬(c ≠ 0 ∧ ∀ e ∈
    st.2, e.counter < c) := by
  constructor
  · rintro (h0 | hle) ⟨hne,hall⟩
    · exact hne h0
    · rcases w.attained with hz | ⟨e,he,hec⟩
      · rw [hz] at hle
        exact hne (UInt64.le_antisymm hle (UInt64.zero_le))
      · have hlt := hall e he
        rw [hec] at hlt
        exact absurd hle (UInt64.not_le.mpr hlt)
  · intro h
    by_contra hc
    push Not at hc
    refine h ⟨hc.1,fun e he => ?_⟩
    exact UInt64.lt_of_le_of_lt (w.accepted_le e he) (UInt64.not_le.mp hc.2)

theorem Window.receive (h : Paired s r) (hd : d ∈ sealAll s ms) (w : Window r st) :
    Window r (receive st d) := by
  have hdel := deliver_sealed h hd st.1.rxCounter
  rw [← w.session_eq] at hdel
  by_cases hc : d.counter = 0 ∨ d.counter ≤ st.1.rxCounter
  · rw [if_pos hc] at hdel
    simpa [LinkChannel.receive,hdel] using w
  · rw [if_neg hc] at hdel
    push Not at hc
    refine ⟨by simp [LinkChannel.receive,hdel],?_,?_⟩
    · intro e he
      simp only [LinkChannel.receive,hdel,Option.isSome_some,if_true,List.mem_cons] at he ⊢
      rcases he with rfl | he
      · exact UInt64.le_refl _
      · exact UInt64.le_trans (w.accepted_le e he) (UInt64.le_of_lt (UInt64.not_le.mp hc.2))
    · exact .inr ⟨d,by simp [LinkChannel.receive,hdel]⟩

theorem Window.foldl (h : Paired s r) {ds : List Sealed}
    (hds : ∀ d ∈ ds, d ∈ sealAll s ms) (w : Window r st) :
    Window r (ds.foldl LinkChannel.receive st) := by
  induction ds generalizing st with
  | nil => exact w
  | cons d ds ih =>
    rw [List.forall_mem_cons] at hds
    exact ih hds.2 (w.receive h hds.1)

/-- The next delivery is accepted exactly when its counter is not zero and exceeds every accepted
one; it then yields the message, and a rejection changes nothing. -/
theorem deliver_exact {s r : Session} (h : Paired s r) (ms : List Message) (ds : List Sealed)
    (hds : ∀ d ∈ ds, d ∈ sealAll s ms) (d : Sealed) (hd : d ∈ sealAll s ms) :
    ((deliver (ds.foldl receive (r,[])).1 d.wire).2.isSome ↔
      d.counter ≠ 0 ∧ ∀ e ∈ (ds.foldl receive (r,[])).2, e.counter < d.counter) ∧
    (∀ f, (deliver (ds.foldl receive (r,[])).1 d.wire).2 = some f →
      f.channel = d.message.channel ∧ f.msgId = d.message.msgId ∧ f.body = d.message.text) ∧
    ((deliver (ds.foldl receive (r,[])).1 d.wire).2 = none →
      (deliver (ds.foldl receive (r,[])).1 d.wire).1 = (ds.foldl receive (r,[])).1) := by
  have w := (Window.init h).foldl h hds
  have hdel := deliver_sealed h hd (ds.foldl receive (r,[])).1.rxCounter
  rw [← w.session_eq] at hdel
  have hfit := d.message.fits
  have hbody : d.message.text.length ≤ linkMaxPayload := by omega
  by_cases hc : d.counter = 0 ∨ d.counter ≤ (ds.foldl receive (r,[])).1.rxCounter
  · rw [if_pos hc] at hdel
    have hno := w.rejects_iff.mp hc
    simp [hdel,hno]
  · rw [if_neg hc] at hdel
    have hyes := not_not.mp (mt w.rejects_iff.mpr hc)
    refine ⟨by simpa [hdel] using hyes,?_,by simp [hdel]⟩
    intro f hf
    simp only [hdel,Option.some.injEq] at hf
    subst hf
    exact ⟨rfl,rfl,Frame.ofBody_body hbody⟩

def hostOpen : Session := ⟨Vector.replicate 16 0,1,1,0,0,dirHost,true⟩
def deviceOpen : Session := ⟨Vector.replicate 16 0,1,1,0,0,dirDevice,true⟩

theorem hostOpen_paired : Paired hostOpen deviceOpen :=
  ⟨rfl,rfl,rfl,.inl ⟨rfl,rfl⟩,rfl,rfl,⟨rfl,rfl⟩,⟨rfl,rfl⟩⟩

def emptyCall : Message := ⟨chCall,0,[],by simp⟩

/-- The first frame after the handshake is accepted. -/
theorem deliver_exact_first :
    (deliver deviceOpen (sealWire hostOpen chCall 0 [])).2.isSome := by
  have hmem : (⟨emptyCall,1,sealWire hostOpen chCall 0 []⟩ : Sealed) ∈
      sealAll hostOpen [emptyCall] := by
    rw [sealAll_cons rfl]
    exact List.mem_cons_self
  exact (deliver_exact hostOpen_paired [emptyCall] [] (by simp) _ hmem).1.mpr
    ⟨by decide,by simp⟩

/-- After `2^64` seals the counter is zero again, and that frame is refused. -/
theorem deliver_wrapped_counter :
    ∃ ms, ∃ d ∈ sealAll hostOpen ms, (deliver deviceOpen d.wire).2 = none ∧
      ∀ e ∈ (([] : List Sealed).foldl receive (deviceOpen,[])).2, e.counter < d.counter := by
  have hlast (n : ℕ) : (⟨emptyCall,UInt64.ofNat n+1,
      sealWire { hostOpen with txCounter := UInt64.ofNat n } chCall 0 []⟩ : Sealed) ∈
        sealAll hostOpen (List.replicate n emptyCall++[emptyCall]) := by
    rw [sealAll_append rfl,List.length_replicate,
      sealAll_cons (s:={ hostOpen with txCounter := hostOpen.txCounter+UInt64.ofNat n }) rfl]
    simp [hostOpen,emptyCall]
  refine ⟨_,_,hlast (2^64-1),?_,by simp⟩
  have hdel := deliver_sealed hostOpen_paired (hlast (2^64-1)) 0
  rw [if_pos (.inl (by decide))] at hdel
  exact congrArg Prod.snd hdel

end TinyDeviceOs.LinkChannel
