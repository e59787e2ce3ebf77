import TinyDeviceOs.HostCalls
import TinyDeviceOs.HostSession
import TinyDeviceOs.FramePipe

/-! The host's `Link` of `scripts/link_codec.py`. Methods that wait are cut at their reads: the
phase says in which loop the host waits, and an empty chunk is a read that timed out. There is no
clock. Three histories are kept: the frames that `open_frame` raised for, the calls that were
written, and the texts that `call` returned. -/
namespace TinyDeviceOs.HostLink

open LittleEndian LinkFrame LinkSession LinkDispatch HostCodec HostCrypto HostCalls HostSession List
  FramePipe

def tagSensorKey : UInt8 := 1
def tagSensorValue : UInt8 := 2

/-- Of `describe`, by the bytes that they are decoded from. -/
inductive Text
  | ok
  | error (number : ℕ) (message : Bytes)
  | sensor (key : Bytes) (value : ℤ)
  | channel (number : ℕ)
  deriving DecidableEq

/-- `value or default` for bytes that may be missing. -/
def orDefault (value : Option Bytes) (default : Bytes) : Bytes :=
  match value with
  | none => default
  | some bytes => if bytes = [] then default else bytes

/-- `int.from_bytes(bytes, "little", signed=True)`. -/
def signedOf (bytes : Bytes) : ℤ :=
  if 256^bytes.length ≤ 2*ofBytes bytes then (ofBytes bytes : ℤ)-256^bytes.length
  else ofBytes bytes

def describe (plain : Plain) : Text :=
  if plain.channel = chResult.toNat then .ok
  else if plain.channel = chError.toNat then
    let code := orDefault (tlvGet plain.payload tagCode) [0,0]
    let message := orDefault (tlvGet plain.payload tagErrmsg) []
    .error (byteAt code 0 ||| (if 1 < code.length then byteAt code 1 <<< 8 else 0)) message
  else if plain.channel = chEvent.toNat then
    let key := orDefault (tlvGet plain.payload tagSensorKey) []
    let raw := orDefault (tlvGet plain.payload tagSensorValue) [0,0,0,0]
    .sensor key (signedOf (raw.take 4))
  else .channel plain.channel

/-- The loop that the host is in and its reads; a call is named by its counter. After a Hello that
is refused there is no link. -/
inductive Phase
  | handshake (reads : ℕ)
  | idle
  | call (counter reads : ℕ)
  | failed
  deriving DecidableEq

structure Link where
  session : Host
  stream : Bytes
  ready : List HostFrame
  msg : ℕ
  phase : Phase
  refused : List HostFrame
  started : List (ℕ × Bytes)
  returned : List (ℕ × Text)
  deriving DecidableEq

def Link.init (session : Host) : Link :=
  { session := session
    stream := []
    ready := []
    msg := 10
    phase := .handshake 0
    refused := []
    started := []
    returned := [] }

def offer (s : Host) : Bytes := (encodeHello s 0 1).getD []

/-- What a round of `_next_frame` comes to. -/
inductive Arrival
  | timeout
  | again
  | frames (first : HostFrame) (others : List HostFrame)

def maxReads : ℕ := 50

/-- A round that finds no frame ready. The `push(b"")` before the read finds none. -/
def nextFrame (stream : Bytes) (reads : ℕ) (chunk : Bytes) : Arrival × Bytes :=
  if chunk = [] then (.timeout,stream)
  else match extractFrames (stream++chunk) with
    | ([],kept) => (if reads+1 = maxReads then .timeout else .again,kept)
    | (f::fs,kept) => (.frames f fs,kept)

section

variable (l : Link)

/-- On the frames at hand, with what is written. -/
def greet (l : Link) : List HostFrame → Link × Bytes
  | [] => ({ l with ready := [], phase := .handshake 0 },[])
  | f::fs =>
    if f.channel ≠ chHello.toNat then ((greet l fs).1,offer l.session++(greet l fs).2)
    else match acceptHello l.session f 0 with
      | (s,.ok _) => ({ l with session := s, ready := fs, phase := .idle },[])
      | (s,.error _) => ({ l with session := s, ready := fs, phase := .failed },[])

def handshakeRead (reads : ℕ) (chunk : Bytes) : Link × Bytes :=
  match nextFrame l.stream reads chunk with
  | (.timeout,kept) => ({ l with stream := kept, phase := .handshake 0 },offer l.session)
  | (.again,kept) => ({ l with stream := kept, phase := .handshake (reads+1) },[])
  | (.frames f fs,kept) => greet { l with stream := kept } (f::fs)

/-- The loop of `call` on the frames at hand. -/
def answer (l : Link) (counter : ℕ) : List HostFrame → Link
  | [] => { l with ready := [], phase := .call counter 0 }
  | f::fs =>
    match openFrame l.session f with
    | (s,.error _) => { l with
        session := s, ready := fs, phase := .idle, refused := f::l.refused }
    | (s,.ok plain) =>
      if plain.channel = chResult.toNat ∨ plain.channel = chError.toNat then
        { l with
          session := s
          ready := fs
          phase := .idle
          returned := (counter,describe plain)::l.returned }
      else answer { l with session := s } counter fs

def callRead (counter reads : ℕ) (chunk : Bytes) : Link :=
  match nextFrame l.stream reads chunk with
  | (.timeout,kept) => { l with stream := kept, phase := .idle }
  | (.again,kept) => { l with stream := kept, phase := .call counter (reads+1) }
  | (.frames f fs,kept) => answer { l with stream := kept } counter (f::fs)

/-- Under the next message number, with what is written. -/
def sealNext (channel : UInt8) (pt : Bytes) : Link × Option Bytes :=
  let r := sessionSeal l.session channel.toNat (l.msg+1) pt
  ({ l with session := r.1, msg := l.msg+1 },r.2.toOption)

/-- Up to the first read. What cannot be encoded or sealed raises. -/
def call (c : HostCall) : Link × Bytes :=
  match encodeCall c with
  | none => (l,[])
  | some payload =>
    match sealNext l chCall payload with
    | (l,none) => (l,[])
    | (l,some wire) =>
      let counter := l.session.txCounter
      (answer { l with started := (counter,payload)::l.started } counter l.ready,wire)

/-- Pieces of 200 bytes, each in a frame of its own. -/
def sendTty (l : Link) (data : Bytes) : Link × Bytes :=
  if data = [] then (l,[])
  else match sealNext l chTty (data.take 200) with
    | (l,none) => (l,[])
    | (l,some wire) => ((sendTty l (data.drop 200)).1,wire++(sendTty l (data.drop 200)).2)
termination_by data.length
decreasing_by
  all_goals
    have hp := length_pos_iff.mpr (by assumption : data ≠ [])
    rw [length_drop]
    omega

/-- `open_frame` on every encrypted frame. -/
def absorb (s : Host) : List HostFrame → Host × List (HostFrame × Except Raised Plain)
  | [] => (s,[])
  | f::fs =>
    if f.flags &&& flagEncrypted.toNat = 0 ∨ s.isOpen = false then absorb s fs
    else ((absorb (openFrame s f).1 fs).1,(f,(openFrame s f).2)::(absorb (openFrame s f).1 fs).2)

def refusals (results : List (HostFrame × Except Raised Plain)) : List HostFrame :=
  results.filterMap fun r => match r.2 with
    | .error _ => some r.1
    | .ok _ => none

variable (result : HostFrame × Except Raised Plain)

def ttyBytes : Bytes :=
  match result.2 with
  | .ok plain => if plain.channel = chTty.toNat then plain.payload else []
  | .error _ => []

/-- With the bytes there are. Its two pushes are one. -/
def takeTty (chunk : Bytes) : Link × Bytes :=
  let queued := absorb l.session l.ready
  let found := extractFrames (l.stream++chunk)
  let fresh := absorb queued.1 found.1
  ({ l with
      session := fresh.1
      stream := found.2
      ready := []
      refused := refusals (queued.2++fresh.2)++l.refused },
    (queued.2++fresh.2).flatMap ttyBytes)

/-- `none` stands for the text `dropped`. -/
def line : Option Text :=
  match result.2 with
  | .ok plain => some (describe plain)
  | .error _ => none

/-- With the bytes there are. Ready frames are left alone. -/
def poll (chunk : Bytes) : Link × List (Option Text) :=
  if chunk = [] then (l,[])
  else
    let found := extractFrames (l.stream++chunk)
    let fresh := absorb l.session found.1
    ({ l with session := fresh.1, stream := found.2, refused := refusals fresh.2++l.refused },
      fresh.2.map line)

end

section

theorem byteOf_mod : byteOf (n % 2^16) = byteOf n := by
  rw [byteOf_eq,byteOf_eq,←UInt8.toNat_inj,UInt8.toNat_ofNat',UInt8.toNat_ofNat']
  omega

theorem byteOf_mod_shift : byteOf ((n % 2^16) >>> 8) = byteOf (n >>> 8) := by
  rw [byteOf_eq,byteOf_eq,←UInt8.toNat_inj,UInt8.toNat_ofNat',UInt8.toNat_ofNat',
    Nat.shiftRight_eq_div_pow,Nat.shiftRight_eq_div_pow]
  omega

theorem sessionSeal_mod : sessionSeal s channel (msgId % 2^16) pt = sessionSeal s channel msgId
    pt := by
  simp only [sessionSeal,headerBytes,encodeFrame,encodeHeader,byteOf_mod,byteOf_mod_shift]

variable (hs : Session) (channel : UInt8) (msgId : UInt16) (pt : Bytes)

theorem sessionSeal_long (hp : linkMaxPayload-24 < pt.length) :
    ∃ k e, sessionSeal (Host.ofSession hs) channel.toNat msgId.toNat pt =
      (Host.ofSession { hs with txCounter := k },.error e) := by
  have hchannel := channel.toNat_lt
  have htx : (Host.ofSession hs).txCounter = hs.txCounter.toNat := rfl
  rw [sessionSeal]
  by_cases ho : (Host.ofSession hs).isOpen = false
  · rw [if_pos ho]
    exact ⟨hs.txCounter,_,rfl⟩
  rw [if_neg ho]
  dsimp only
  by_cases hcounter : 256^8 ≤ (Host.ofSession hs).txCounter+1
  · rw [if_pos hcounter]
    exact ⟨hs.txCounter,_,rfl⟩
  rw [if_neg hcounter,if_neg (by omega)]
  have hnext := counter_succ (c:=hs.txCounter) (by omega)
  split
  · exact ⟨hs.txCounter,_,rfl⟩
  · rename_i ct tag henc
    have hlen : ct.length = pt.length ∧ tag.length = 16 := by
      simp only [Host.ofSession,←hnext,nonceOf_eq] at henc
      exact aesgcmEncrypt_length henc
    have hnone : encodeFrame channel.toNat msgId.toNat
        (toBytes 8 ((Host.ofSession hs).txCounter+1)++ct++tag) flagEncrypted.toNat = none := by
      rw [encodeFrame,if_pos]
      rw [length_append,length_append,toBytes_length,hlen.1,hlen.2]
      omega
    rw [hnone]
    exact ⟨hs.txCounter+1,_,by rw [Host.ofSession,Host.ofSession,hnext]⟩

variable {hs}

theorem sealNext_open (hl : l.session = Host.ofSession hs) (ho : hs.isOpen = true)
    (hp : pt.length ≤ linkMaxPayload-24) (hc : hs.txCounter.toNat+1 < 2^64) :
    sealNext l channel pt = ({ l with
      session := Host.ofSession { hs with txCounter := hs.txCounter+1 }, msg := l.msg+1 },
      some (wireOf (sealFrame hs channel (UInt16.ofNat (l.msg+1)) pt))) := by
  have hmod : (l.msg+1) % 2^16 = (UInt16.ofNat (l.msg+1)).toNat := by
    rw [UInt16.toNat_ofNat']
  have hcap : linkHeaderLen+(24+pt.length)+2 ≤ linkMaxFrame := by
    simp only [linkMaxFrame,linkMaxPayload] at *
    omega
  obtain ⟨hsession,hout⟩ := sessionSeal_eq hs channel (UInt16.ofNat (l.msg+1)) (by omega) hp hcap
  rw [linkSessionSeal_open channel _ ho hp] at hsession hout
  simp only [sealNext,hl]
  rw [←sessionSeal_mod,hmod,hsession,hout]
  rfl

theorem sealNext_cases (hl : l.session = Host.ofSession hs) :
    (∃ k, sealNext l channel pt = ({ l with
        session := Host.ofSession { hs with txCounter := k }, msg := l.msg+1 },none)) ∨
      hs.isOpen = true ∧ pt.length ≤ linkMaxPayload-24 ∧ hs.txCounter.toNat+1 < 2^64 := by
  have hmod : (l.msg+1) % 2^16 = (UInt16.ofNat (l.msg+1)).toNat := by
    rw [UInt16.toNat_ofNat']
  by_cases hp : linkMaxPayload-24 < pt.length
  · obtain ⟨k,e,hlong⟩ := sessionSeal_long hs channel (UInt16.ofNat (l.msg+1)) pt hp
    refine .inl ⟨k,?_⟩
    simp only [sealNext,hl]
    rw [←sessionSeal_mod,hmod,hlong]
    rfl
  by_cases ho : hs.isOpen = false
  · have hclosed : (Host.ofSession hs).isOpen = false := ho
    refine .inl ⟨hs.txCounter,?_⟩
    simp only [sealNext,hl]
    rw [sessionSeal,if_pos hclosed]
    rfl
  by_cases hc : hs.txCounter.toNat+1 < 2^64
  · exact .inr ⟨by simpa using ho,by omega,hc⟩
  · have hh : ¬(Host.ofSession hs).isOpen = false := ho
    have htx : (Host.ofSession hs).txCounter = hs.txCounter.toNat := rfl
    refine .inl ⟨hs.txCounter,?_⟩
    simp only [sealNext,hl,sessionSeal]
    rw [if_neg hh,if_pos (by omega)]
    rfl

end

/-- The wait ends without a frame, or with the next ones. -/
theorem nextFrame_wires (hfs : ∀ f ∈ fs, Whole f) (h : stream++down = wires fs) (reads n : ℕ) :
    (∃ kept, kept++down.drop n = wires fs ∧ (nextFrame stream reads (down.take n) =
    (.timeout,kept) ∨ nextFrame stream reads (down.take n) = (.again,kept))) ∨ ∃ g gs rest kept,
    fs = g::gs++rest ∧ kept++down.drop n = wires rest ∧ nextFrame stream reads (down.take n) =
    (.frames (seen g) (gs.map seen),kept) := by
  by_cases hchunk : down.take n = []
  · refine .inl ⟨stream,?_,.inl (by rw [nextFrame,if_pos hchunk])⟩
    rwa [←take_append_drop n down,hchunk,nil_append] at h
  rw [←take_append_drop n down,←append_assoc] at h
  obtain ⟨gs,rest,rfl,hfound,hkept⟩ := extractFrames_wires hfs h
  have hextract : extractFrames (stream++down.take n) =
      (gs.map seen,(extractFrames (stream++down.take n)).2) := Prod.ext hfound rfl
  rw [nextFrame,if_neg hchunk,hextract]
  cases gs with
  | nil =>
    refine .inl ⟨_,hkept,?_⟩
    by_cases hmax : reads+1 = maxReads
    · exact .inl (by rw [map_nil,if_pos hmax])
    · exact .inr (by rw [map_nil,if_neg hmax])
  | cons g gs => exact .inr ⟨g,gs,rest,_,rfl,hkept,rfl⟩

end TinyDeviceOs.HostLink
