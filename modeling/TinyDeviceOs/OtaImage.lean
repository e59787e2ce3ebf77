import TinyDeviceOs.CTypes
import TinyDeviceOs.Crc32
import TinyDeviceOs.Regions
import TinyDeviceOs.Runs

/-! The firmware update of `fs/ota.c` up to `ota_end`: a handle on a partition, and the chunks that
are written through it. -/
namespace TinyDeviceOs.Ota

open LittleEndian CTypes Crc32

def otaPartitionMax : UInt32 := 3
def partitionStart : UInt32 := 0x10000
def partitionSize : UInt32 := 0x100000

structure Handle where
  (partition offset expectedSize written crc32 : UInt32)
  deriving DecidableEq

/-- Bytes in memory; `size_t` can count them. -/
structure Buffer (m : DataModel) where
  bytes : Bytes
  measured : bytes.length < m.sizeLimit

/-- The data may be null, and the storage may refuse. -/
structure Call (m : DataModel) where
  data : Option (Buffer m)
  stored : Bool

/-- The writes that succeeded and the results of `ota_write`. -/
structure Session where
  handle : Handle
  writes : List (ℕ × Bytes)
  returned : List Int32
  deriving DecidableEq

/-- `none` is NULL. -/
def otaBegin (partition expectedSize : UInt32) (alloc : Bool) : Option Handle :=
  if otaPartitionMax ≤ partition then none
  else if alloc then some {
    partition := partition
    offset := partitionStart+partition*partitionSize
    expectedSize := expectedSize
    written := 0
    crc32 := 0 }
  else none

def otaCrc32Update (crc : UInt32) (data : Bytes) : UInt32 := crc32Update crc data

/-- On the statics of `ota.c`. -/
def otaCrc32UpdateOn (t : Table) (crc : UInt32) (data : Bytes) : UInt32 × Table :=
  crc32UpdateOn t crc data

/-- Whatever was called before on either file's statics; a split continues on those of the call
before it. -/
theorem crc32s_agree (ota module : List (UInt32 × Bytes)) (crc : UInt32) (a b : Bytes) :
    let s := Table.after ota
    let t := Table.after module
    let first := otaCrc32UpdateOn s crc a
    let first' := crc32UpdateOn t crc a
    first.1 = first'.1 ∧ first'.1 = bitwise crc a ∧
      (otaCrc32UpdateOn first.2 first.1 b).1 = (otaCrc32UpdateOn s crc (a++b)).1 ∧
      (crc32UpdateOn first'.2 first'.1 b).1 = (crc32UpdateOn t crc (a++b)).1 ∧
      first.1 = otaCrc32Update crc a ∧ first'.1 = crc32Update crc a := by
  have hsplit (calls : List (UInt32 × Bytes)) :
      (crc32UpdateOn (crc32UpdateOn (Table.after calls) crc a).2
        (crc32UpdateOn (Table.after calls) crc a).1 b).1 =
        (crc32UpdateOn (Table.after calls) crc (a++b)).1 := by
    have hnext : (crc32UpdateOn (Table.after calls) crc a).2 = Table.after (calls++[(crc,a)]) := by
      rw [Table.after,Table.after,List.foldl_append]
      rfl
    rw [hnext,crc32UpdateOn_after,crc32UpdateOn_after,crc32UpdateOn_after,crc32Update_append]
  have hota := crc32UpdateOn_after ota crc a
  have hmodule := crc32UpdateOn_after module crc a
  exact ⟨hota.trans hmodule.symm,hmodule.trans (crc32Update_eq_bitwise crc a),hsplit ota,
    hsplit module,hota,hmodule⟩

section

variable (m : DataModel)

/-- The sum is one of `size_t`, the difference of `uint32_t`. -/
def clippedSize (h : Handle) (size : ℕ) : ℕ :=
  if (h.written.toNat+size) % m.sizeLimit > h.expectedSize.toNat then
    (h.expectedSize-h.written).toNat
  else size

/-- No result: the storage is given more than the data. -/
def otaWrite (s : Session) (c : Call m) : Option Session :=
  match c.data with
  | none => some { s with returned := s.returned++[-1] }
  | some data =>
    if data.bytes = [] then some { s with returned := s.returned++[-1] }
    else
      let h := s.handle
      let size := clippedSize m h data.bytes.length
      if c.stored = false then some { s with returned := s.returned++[-1] }
      else if data.bytes.length < size then none
      else some {
        handle := { h with
          crc32 := otaCrc32Update h.crc32 (data.bytes.take size)
          written := h.written+UInt32.ofNat size }
        writes := s.writes++[((h.offset+h.written).toNat,data.bytes.take size)]
        returned := s.returned++[Int32.ofNat size] }

def otaRun (h : Handle) (calls : List (Call m)) : Option Session :=
  calls.foldl (fun s c => s.bind (otaWrite m · c)) (some ⟨h,[],[]⟩)

end

variable {m : DataModel} {h : Handle} {s s' : Session} {c : Call m} {calls : List (Call m)}

section

def Call.chunk (c : Call m) : Bytes :=
  if c.stored then (c.data.map Buffer.bytes).getD [] else []

def received (calls : List (Call m)) : Bytes := calls.flatMap Call.chunk

theorem Call.chunk_measured (c : Call m) : c.chunk.length < m.sizeLimit := by
  have hpos : 0 < m.sizeLimit := lt_of_lt_of_le (by decide) m.le_sizeLimit
  rw [Call.chunk]
  split_ifs
  · cases c.data with
    | none => exact hpos
    | some data => exact data.measured
  · exact hpos

theorem received_append : received (calls++[c]) = received calls++c.chunk := by
  simp [received]

theorem otaRun_append (calls : List (Call m)) : otaRun m h (calls++[c]) = (otaRun m h
    calls).bind (otaWrite m · c) := by
  rw [otaRun,List.foldl_append]
  rfl

theorem otaWrite_idle (hc : c.chunk = []) :
    otaWrite m s c = some { s with returned := s.returned++[-1] } := by
  rw [otaWrite]
  cases hdata : c.data with
  | none => rfl
  | some data =>
    by_cases hempty : data.bytes = []
    · simp [hempty]
    · have hstored : c.stored = false := by
        rw [Call.chunk,hdata] at hc
        by_contra hstored
        exact hempty (by simpa [hstored] using hc)
      simp [hempty,hstored]

theorem otaWrite_chunk (hc : c.chunk ≠ []) : otaWrite m s c =
    if c.chunk.length < clippedSize m s.handle c.chunk.length then none
    else some {
      handle := { s.handle with
        crc32 := otaCrc32Update s.handle.crc32
          (c.chunk.take (clippedSize m s.handle c.chunk.length))
        written := s.handle.written+UInt32.ofNat (clippedSize m s.handle c.chunk.length) }
      writes := s.writes++[((s.handle.offset+s.handle.written).toNat,
        c.chunk.take (clippedSize m s.handle c.chunk.length))]
      returned := s.returned++[Int32.ofNat (clippedSize m s.handle c.chunk.length)] } := by
  have hstored : c.stored = true := by
    by_contra hstored
    exact hc (by simp [Call.chunk,hstored])
  cases hdata : c.data with
  | none => simp [Call.chunk,hdata] at hc
  | some data =>
    have hbytes : c.chunk = data.bytes := by simp [Call.chunk,hstored,hdata]
    rw [hbytes] at hc ⊢
    simp only [otaWrite,hdata,if_neg hc,hstored]
    rfl

variable {size : ℕ}

theorem clippedSize_eq (hle : h.written ≤ h.expectedSize)
    (hsum : h.written.toNat+size < m.sizeLimit) :
    clippedSize m h size = min size (h.expectedSize.toNat-h.written.toNat) := by
  rw [clippedSize,Nat.mod_eq_of_lt hsum,UInt32.toNat_sub_of_le _ _ hle]
  have := UInt32.le_iff_toNat_le.mp hle
  split_ifs <;> omega

theorem clippedSize_wrap (hle : h.written ≤ h.expectedSize) (hsize : size < m.sizeLimit)
    (hsum : m.sizeLimit ≤ h.written.toNat+size) : clippedSize m h size = size := by
  have hwritten := UInt32.le_iff_toNat_le.mp hle
  have hlt := h.written.toNat_lt
  have hlimit := m.le_sizeLimit
  have hmod : (h.written.toNat+size) % m.sizeLimit = h.written.toNat+size-m.sizeLimit := by
    rw [Nat.mod_eq_sub_mod hsum,Nat.mod_eq_of_lt (by omega)]
  rw [clippedSize,hmod,if_neg (by omega)]

end

section

open Regions Runs List Option

variable {m : DataModel} {partition expectedSize : UInt32} {h : Handle} {s s' : Session}
  {c : Call m} {calls : List (Call m)}

/-- The sum that `ota_write` tests does not wrap around. -/
def NoWrap (m : DataModel) (expected : ℕ) : List (Call m) → Prop :=
  AtEach fun before c => min (received before).length expected+c.chunk.length < m.sizeLimit

def image (h : Handle) (calls : List (Call m)) : Bytes :=
  (received calls).take h.expectedSize.toNat

theorem image_length : (image h calls).length =
    min (received calls).length h.expectedSize.toNat := by
  rw [image,length_take,min_comm]

theorem image_length_le (calls : List (Call m)) :
    (image h calls).length ≤ h.expectedSize.toNat := by
  rw [image_length]
  exact min_le_right _ _

def taken (h : Handle) (calls : List (Call m)) (c : Call m) : Bytes :=
  c.chunk.take (h.expectedSize.toNat-(image h calls).length)

theorem taken_length : (taken h calls c).length = min c.chunk.length
    (h.expectedSize.toNat-(image h calls).length) := by
  rw [taken,length_take,min_comm]

theorem image_append : image h (calls++[c]) = image h calls++taken h calls c := by
  rw [taken,image,received_append,take_append,image_length,image]
  congr 2
  omega

theorem image_length_append (calls : List (Call m)) (c : Call m) :
    (image h (calls++[c])).length = (image h calls).length+(taken h calls c).length := by
  rw [image_append,length_append]

/-- A session that has written the image. -/
structure Follows (h : Handle) (calls : List (Call m)) (s : Session) : Prop where
  offset : s.handle.offset = h.offset
  expectedSize : s.handle.expectedSize = h.expectedSize
  written : s.handle.written.toNat = (image h calls).length
  crc32 : s.handle.crc32 = crc32Update 0 (image h calls)
  storage : ∀ storage, replay storage s.writes = put storage h.offset.toNat (image h calls)
  inside : ∀ x ∈ s.writes, x.2 = [] ∨
    h.offset.toNat ≤ x.1 ∧ x.1+x.2.length ≤ h.offset.toNat+(image h calls).length

section

variable (hs : Follows h calls s)
include hs

theorem Follows.le_expectedSize : s.handle.written ≤ s.handle.expectedSize := by
  rw [UInt32.le_iff_toNat_le,hs.written,hs.expectedSize]
  exact image_length_le calls

theorem Follows.address (c : Call m) (hroom : h.offset.toNat+(image h (calls++[c])).length ≤
    2^32) : taken h calls c = [] ∨ (h.offset+s.handle.written).toNat = h.offset.toNat+(image h
    calls).length := by
  rcases eq_or_ne (taken h calls c) [] with hnil | hsome
  · exact .inl hnil
  · have hpos := length_pos_iff.mpr hsome
    rw [image_length_append] at hroom
    rw [UInt32.toNat_add,hs.written]
    exact .inr (Nat.mod_eq_of_lt (by omega))

/-- Without wrap-around, a chunk is cut at the expected size. -/
theorem Follows.otaWrite_eq (hc : c.chunk ≠ [])
    (hsum : (image h calls).length+c.chunk.length < m.sizeLimit) : otaWrite m s c = some {
      handle := { s.handle with
        crc32 := otaCrc32Update s.handle.crc32 (taken h calls c)
        written := s.handle.written+UInt32.ofNat (taken h calls c).length }
      writes := s.writes++[((h.offset+s.handle.written).toNat,taken h calls c)]
      returned := s.returned++[Int32.ofNat (taken h calls c).length] } := by
  have hclip := clippedSize_eq (m:=m) hs.le_expectedSize (hs.written.symm▸hsum)
  rw [hs.written,hs.expectedSize] at hclip
  have htake : c.chunk.take (clippedSize m s.handle c.chunk.length) = taken h calls c := by
    rw [hclip,taken,take_eq_take_iff]
    omega
  rw [otaWrite_chunk hc,htake,hclip,if_neg (by omega),taken_length,hs.offset]

theorem Follows.idle (hc : c.chunk = []) (returned : List Int32) :
    Follows h (calls++[c]) { s with returned := returned } := by
  have himage : image h (calls++[c]) = image h calls := by
    rw [image_append,taken,hc,take_nil,append_nil]
  exact ⟨hs.offset,hs.expectedSize,himage.symm▸hs.written,himage.symm▸hs.crc32,
    himage.symm▸hs.storage,himage.symm▸hs.inside⟩

end

variable (c) in
theorem Follows.write (hs : Follows h calls s)
    (hsum : (image h calls).length+c.chunk.length < m.sizeLimit)
    (hroom : h.offset.toNat+(image h (calls++[c])).length ≤ 2^32) :
    ∃ s', otaWrite m s c = some s' ∧ Follows h (calls++[c]) s' := by
  by_cases hc : c.chunk = []
  · exact ⟨_,otaWrite_idle hc,hs.idle hc _⟩
  have hlen := image_length_append (h:=h) calls c
  have hsmall := image_length_le (h:=h) (calls++[c])
  have hlt := h.expectedSize.toNat_lt
  refine ⟨_,hs.otaWrite_eq hc hsum,hs.offset,hs.expectedSize,?_,?_,?_,?_⟩
  · rw [UInt32.toNat_add,UInt32.toNat_ofNat',hs.written,hlen,
      Nat.mod_eq_of_lt (a:=(taken _ _ _).length) (by omega),Nat.mod_eq_of_lt (by omega)]
  · rw [otaCrc32Update,hs.crc32,←crc32Update_append,←image_append]
  · intro storage
    rw [replay_append,hs.storage,image_append]
    change put _ (h.offset+s.handle.written).toNat _ = _
    rcases hs.address c hroom with hnil | haddress
    · rw [hnil,put_nil,append_nil]
    · rw [haddress,put_append]
  · intro x hx
    rcases mem_append.mp hx with hx | hx
    · rcases hs.inside x hx with hnil | hin
      · exact .inl hnil
      · exact .inr ⟨hin.1,hin.2.trans (by omega)⟩
    · obtain rfl := mem_singleton.mp hx
      rcases hs.address c hroom with hnil | haddress
      · exact .inl hnil
      · exact .inr ⟨by omega,by dsimp only; omega⟩

theorem otaRun_follows (hwritten : h.written = 0) (hcrc : h.crc32 = 0)
    (hwrap : NoWrap m h.expectedSize.toNat calls)
    (hroom : h.offset.toNat+(image h calls).length ≤ 2^32) :
    ∃ s, otaRun m h calls = some s ∧ Follows h calls s := by
  induction calls using reverseRecOn with
  | nil =>
    have himage : image h ([] : List (Call m)) = [] := take_nil
    refine ⟨_,rfl,rfl,rfl,?_,?_,fun storage => ?_,by simp⟩
    · rw [himage,hwritten]
      rfl
    · rw [himage,hcrc,crc32Update_nil]
    · rw [himage,put_nil]
      rfl
  | append_singleton calls c ih =>
    obtain ⟨hbefore,hsum⟩ := atEach_append.mp hwrap
    have hlen := image_length_append (h:=h) calls c
    obtain ⟨s,hs,hfollows⟩ := ih hbefore (by omega)
    rw [otaRun_append,hs]
    exact hfollows.write c (image_length.symm▸hsum) hroom

/-- A chunk whose sum wraps around is written whole. -/
theorem otaWrite_wrap (hs : Follows h calls s)
    (hsum : m.sizeLimit ≤ (image h calls).length+c.chunk.length) :
    ∃ s', otaWrite m s c = some s' ∧
      s'.writes = s.writes++[((h.offset+s.handle.written).toNat,c.chunk)] := by
  have hlimit := m.le_sizeLimit
  have hlt := s.handle.written.toNat_lt
  have hwritten := hs.written
  have hc : c.chunk ≠ [] := fun hnil => by
    rw [hnil,length_nil] at hsum
    omega
  have hclip := clippedSize_wrap hs.le_expectedSize c.chunk_measured (hwritten.symm▸hsum)
  refine ⟨_,(otaWrite_chunk hc).trans (if_neg (by omega)),?_⟩
  rw [hclip,take_length,hs.offset]

theorem otaWrite_writes (hs : otaWrite m s c = some s') : s.writes <+: s'.writes := by
  by_cases hc : c.chunk = []
  · rw [otaWrite_idle hc] at hs
    obtain rfl := some.inj hs
    exact prefix_rfl
  · rw [otaWrite_chunk hc] at hs
    split_ifs at hs
    obtain rfl := some.inj hs
    exact prefix_append _ _

theorem otaRun_writes (hs : otaRun m h calls = some s) (hs' : otaRun m h (calls++later) = some
    s') : s.writes <+: s'.writes := by
  induction later using reverseRecOn generalizing s' with
  | nil =>
    rw [append_nil,hs] at hs'
    exact some.inj hs'▸prefix_rfl
  | append_singleton later c ih =>
    rw [←append_assoc,otaRun_append] at hs'
    obtain ⟨t,ht,hwrite⟩ := bind_eq_some_iff.mp hs'
    exact (ih ht).trans (otaWrite_writes hwrite)

theorem otaRun_mem_writes (hs : otaRun m h before = some s) (hc : ∃ t, otaWrite m s c = some t ∧
    t.writes = log++[x]) (hs' : otaRun m h (before++c::later) = some s') : x ∈ s'.writes := by
  obtain ⟨t,ht,hlog⟩ := hc
  have hnext : otaRun m h (before++[c]) = some t := by
    rw [otaRun_append,hs]
    exact ht
  rw [append_cons] at hs'
  exact (otaRun_writes hnext hs').subset (hlog▸by simp)

theorem toInt_ofNat (hn : n < 2^32) : (Int32.ofNat n).toInt ≤ n ∧ ((Int32.ofNat n).toInt = n ↔ n
    < 2^31) := by
  have heq : (Int32.ofNat n).toInt = if n < 2^31 then (n:ℤ) else (n:ℤ)-2^32 := by
    have hsize : Int32.size = 2^32 := rfl
    rw [Int32.toInt_ofNat',hsize,Int.bmod_def]
    omega
  rw [heq]
  split_ifs with hlt
  · exact ⟨le_rfl,iff_of_true rfl hlt⟩
  · exact ⟨by omega,iff_of_false (by omega) hlt⟩

def returnedSum (s : Session) : ℤ := (s.returned.map Int32.toInt).sum

def Small (expected : ℕ) : List (Call m) → Prop :=
  AtEach fun before c =>
    min c.chunk.length (expected-min (received before).length expected) < 2^31

theorem returnedSum_append : returnedSum ⟨handle,log,s.returned++[x]⟩ = returnedSum s+x.toInt := by
  rw [returnedSum,returnedSum,map_append,sum_append,map_singleton,
    sum_singleton]

theorem otaRun_sum (hwritten : h.written = 0) (hcrc : h.crc32 = 0)
    (hwrap : NoWrap m h.expectedSize.toNat calls)
    (hroom : h.offset.toNat+(image h calls).length ≤ 2^32)
    (hchunks : ∀ c ∈ calls, c.chunk ≠ []) (hs : otaRun m h calls = some s) :
    returnedSum s ≤ (image h calls).length ∧
      (returnedSum s = (image h calls).length ↔ Small h.expectedSize.toNat calls) := by
  induction calls using reverseRecOn generalizing s with
  | nil =>
    obtain rfl := some.inj hs
    have himage : image h ([] : List (Call m)) = [] := take_nil
    rw [himage]
    exact ⟨le_rfl,iff_of_true rfl atEach_nil⟩
  | append_singleton calls c ih =>
    obtain ⟨hbefore,hsum⟩ := atEach_append.mp hwrap
    have hlen := image_length_append (h:=h) calls c
    have hend := image_length_le (h:=h) (calls++[c])
    have hlt := h.expectedSize.toNat_lt
    obtain ⟨t,ht,hfollows⟩ := otaRun_follows hwritten hcrc hbefore (by omega)
    obtain ⟨hle,hiff⟩ := ih hbefore (by omega) (fun x hx => hchunks x (by simp [hx])) ht
    rw [←image_length] at hsum
    rw [otaRun_append,ht,bind_some,
      hfollows.otaWrite_eq (hchunks c (by simp)) hsum] at hs
    obtain rfl := some.inj hs
    obtain ⟨hone,honeiff⟩ := toInt_ofNat (n:=(taken h calls c).length) (by omega)
    have hsmall : Small h.expectedSize.toNat (calls++[c]) ↔
        Small h.expectedSize.toNat calls ∧ (taken h calls c).length < 2^31 := by
      rw [taken_length,image_length]
      exact atEach_append
    rw [hsmall,←hiff,←honeiff,hlen,returnedSum_append]
    push_cast
    omega

/-- A chunk for `ota_write`. -/
structure Chunk (m : DataModel) extends Buffer m where
  nonempty : bytes ≠ []

def Chunk.call (c : Chunk m) : Call m := ⟨some c.toBuffer,true⟩

/-- Exactly `data` from the offset on, as reported. -/
structure Exact (h : Handle) (storage : ℕ → UInt8) (data : Bytes) (s : Session) : Prop where
  image : ∀ i < data.length, replay storage s.writes (h.offset.toNat+i) = data.getD i 0
  others : ∀ a, ¬(h.offset.toNat ≤ a ∧ a < h.offset.toNat+data.length) →
    replay storage s.writes a = storage a
  written : s.handle.written.toNat = data.length
  returned : returnedSum s = data.length
  crc32 : Crc.toPoly s.handle.crc32.toBitVec = checksum data

def joined (chunks : List (Chunk m)) : Bytes := chunks.flatMap fun c => c.bytes

theorem received_chunks : received (chunks.map Chunk.call) = joined chunks := by
  rw [received,flatMap_map]
  rfl

theorem counted_iff : AtEach (fun before c => min (joined before).length expected+c.bytes.length
    < m.sizeLimit ∧ min c.bytes.length (expected-min (joined before).length expected) < 2^31)
    chunks ↔ NoWrap m expected (chunks.map Chunk.call) ∧ Small expected (chunks.map Chunk.call) := by
  rw [atEach_and,NoWrap,Small,atEach_map,atEach_map]
  simp only [received_chunks]
  rfl

theorem otaBegin_some (hbegin : otaBegin partition expectedSize true = some h) :
    partition < otaPartitionMax ∧ h.offset = partitionStart+partition*partitionSize ∧
      h.expectedSize = expectedSize ∧ h.written = 0 ∧ h.crc32 = 0 := by
  rw [otaBegin] at hbegin
  split_ifs at hbegin with hmax
  obtain rfl := some.inj hbegin
  exact ⟨UInt32.not_le.mp hmax,rfl,rfl,rfl,rfl⟩

theorem noWrap_of_others (hwritten : h.written = 0) (hcrc : h.crc32 = 0)
    (hoffset : 0 < h.offset.toNat) (hroom : h.offset.toNat+h.expectedSize.toNat ≤ 2^32)
    (hs : otaRun m h calls = some s)
    (hothers : ∀ storage a, ¬(h.offset.toNat ≤ a ∧ a < h.offset.toNat+(image h calls).length) →
      replay storage s.writes a = storage a) : NoWrap m h.expectedSize.toNat calls := by
  by_contra hwrap
  obtain ⟨before,c,later,rfl,hbefore,hsum⟩ := first_of_not_atEach hwrap
  have hbound := image_length_le (h:=h) before
  obtain ⟨t,ht,hfollows⟩ := otaRun_follows hwritten hcrc hbefore (by omega)
  rw [←image_length] at hsum
  have hmem := otaRun_mem_writes ht (otaWrite_wrap hfollows (not_lt.mp hsum)) hs
  have hlimit := m.le_sizeLimit
  have hlt := h.expectedSize.toNat_lt
  have hcovered : ∃ a, ¬(h.offset.toNat ≤ a ∧
      a < h.offset.toNat+(image h (before++c::later)).length) ∧
      (h.offset+t.handle.written).toNat ≤ a ∧
      a < (h.offset+t.handle.written).toNat+c.chunk.length := by
    have hend := image_length_le (h:=h) (before++c::later)
    have haddress := UInt32.toNat_add h.offset t.handle.written
    rw [hfollows.written] at haddress
    by_cases hlast : h.offset.toNat+(image h before).length < 2^32
    · rw [Nat.mod_eq_of_lt hlast] at haddress
      exact ⟨h.offset.toNat+h.expectedSize.toNat,by omega,by omega,by omega⟩
    · obtain heq : h.offset.toNat+(image h before).length = 2^32 := by omega
      rw [heq,Nat.mod_self] at haddress
      exact ⟨0,by omega,by omega,by omega⟩
  obtain ⟨a,hout,hin⟩ := hcovered
  have hsame : replay (fun _ => 0) s.writes a = replay (fun _ => 1) s.writes a :=
    replay_covered ⟨_,hmem,hin⟩
  rw [hothers _ a hout,hothers _ a hout] at hsame
  exact absurd hsame (by decide)

theorem offset_eq (hbegin : otaBegin partition expectedSize true = some h) :
    partition.toNat < 3 ∧ h.offset.toNat = 0x10000+partition.toNat*0x100000 := by
  obtain ⟨hpartition,hoffset,-⟩ := otaBegin_some hbegin
  have hlt : partition.toNat < 3 := UInt32.lt_iff_toNat_lt.mp hpartition
  refine ⟨hlt,?_⟩
  rw [hoffset,UInt32.toNat_add,UInt32.toNat_mul]
  change (0x10000+partition.toNat*0x100000 % 2^32) % 2^32 = _
  omega

/-- The chunks end up in the partition as they are, cut at the expected size, exactly when each
can be counted in `size_t` and what is taken of it in `int`. -/
theorem data_path_iff (m : DataModel) (partition expectedSize : UInt32) (h : Handle)
    (chunks : List (Chunk m)) (hbegin : otaBegin partition expectedSize true = some h)
    (hroom : h.offset.toNat+expectedSize.toNat ≤ 2^32) :
    (∀ storage, ∃ s, otaRun m h (chunks.map Chunk.call) = some s ∧
      Exact h storage ((joined chunks).take expectedSize.toNat) s) ↔
    AtEach (fun before c =>
      min (joined before).length expectedSize.toNat+c.bytes.length < m.sizeLimit ∧
      min c.bytes.length (expectedSize.toNat-min (joined before).length expectedSize.toNat) < 2^31)
      chunks := by
  obtain ⟨-,-,rfl,hwritten,hcrc⟩ := otaBegin_some hbegin
  obtain ⟨-,hoffset⟩ := offset_eq hbegin
  have himage : image h (chunks.map Chunk.call) = (joined chunks).take h.expectedSize.toNat := by
    rw [image,received_chunks]
  have hle := image_length_le (h:=h) (chunks.map Chunk.call)
  have hchunks : ∀ c ∈ chunks.map Chunk.call, c.chunk ≠ [] := fun c hc => by
    obtain ⟨x,-,rfl⟩ := List.mem_map.mp hc
    exact x.nonempty
  rw [counted_iff,←himage]
  constructor
  · intro hexact
    obtain ⟨s,hs,hzero⟩ := hexact fun _ => 0
    have hothers (storage : ℕ → UInt8) (a : ℕ)
        (ha : ¬(h.offset.toNat ≤ a ∧ a < h.offset.toNat+(image h (chunks.map Chunk.call)).length)) :
        replay storage s.writes a = storage a := by
      obtain ⟨s',hs',hall⟩ := hexact storage
      obtain rfl := some.inj (hs.symm.trans hs')
      exact hall.others a ha
    have hwrap := noWrap_of_others hwritten hcrc (by omega) hroom hs hothers
    exact ⟨hwrap,(otaRun_sum hwritten hcrc hwrap (by omega) hchunks hs).2.mp hzero.returned⟩
  · rintro ⟨hwrap,hsmall⟩ storage
    obtain ⟨s,hs,hfollows⟩ := otaRun_follows hwritten hcrc hwrap (by omega)
    refine ⟨s,hs,fun i hi => ?_,fun a ha => ?_,hfollows.written,?_,?_⟩
    · rw [hfollows.storage,put_inside (fun _ => 0) ⟨by omega,by omega⟩,Nat.add_sub_cancel_left]
    · rw [hfollows.storage,put_outside ha]
    · exact (otaRun_sum hwritten hcrc hwrap (by omega) hchunks hs).2.mpr hsmall
    · rw [hfollows.crc32,crc32Update_checksum]

variable (n : UInt32)

theorem word_measured : n.toNat+1 < DataModel.lp64.sizeLimit := by
  have hlt := n.toNat_lt
  simp only [DataModel.sizeLimit]
  omega

def zeros : Chunk .lp64 where
  bytes := replicate (n.toNat+1) 0
  measured := length_replicate.trans_lt (word_measured n)
  nonempty := cons_ne_nil _ _

theorem zeros_length : (zeros n).bytes.length = n.toNat+1 := length_replicate

theorem otaRun_single (c : Chunk m) (hwritten : h.written = 0)
    (hsize : c.bytes.length ≤ h.expectedSize.toNat) : otaRun m h [c.call] = some {
      handle := { h with
        crc32 := otaCrc32Update h.crc32 c.bytes
        written := UInt32.ofNat c.bytes.length }
      writes := [(h.offset.toNat,c.bytes)]
      returned := [Int32.ofNat c.bytes.length] } := by
  have hchunk : c.call.chunk = c.bytes := rfl
  have hclip : clippedSize m h c.bytes.length = c.bytes.length := by
    rw [clippedSize_eq (by rw [hwritten]; exact UInt32.zero_le)
      (by simpa [hwritten] using c.measured),hwritten]
    exact min_eq_left hsize
  change otaWrite m ⟨h,[],[]⟩ c.call = _
  rw [otaWrite_chunk (hchunk▸c.nonempty),hchunk,hclip,if_neg (lt_irrefl _),take_length,
    hwritten,UInt32.add_zero,UInt32.zero_add]
  rfl

theorem data_path_iff_zeros : ∃ h, otaBegin 0 4 true = some h ∧ h.offset.toNat+4 ≤ 2^32 ∧
    ((∀ storage, ∃ s, otaRun .lp64 h ([zeros 2].map Chunk.call) = some s ∧
      Exact h storage ((joined [zeros 2]).take 4) s) ↔
    AtEach (fun before c => min (joined before).length 4+c.bytes.length < 2^64 ∧
      min c.bytes.length (4-min (joined before).length 4) < 2^31)
      [zeros 2]) :=
  ⟨_,rfl,by decide,data_path_iff .lp64 0 4 _ _ rfl (by decide)⟩

theorem negative_of_length (c : Chunk .lp64) (hlen : c.bytes.length = 2147483648) :
    ∃ h s, otaBegin 0 2147483648 true = some h ∧ h.offset.toNat+2147483648 ≤ 2^32 ∧
      otaRun .lp64 h [c.call] = some s ∧ s.handle.written.toNat = 2147483648 ∧
      returnedSum s = -2147483648 := by
  refine ⟨_,_,rfl,by decide,otaRun_single c rfl (by rw [hlen]; decide),?_,?_⟩
  · rw [hlen]
    exact UInt32.toNat_ofNat_of_lt' (by decide)
  · rw [hlen]
    change [(Int32.ofNat 2147483648).toInt].sum = _
    decide

theorem returned_size_negative : ∃ h s, otaBegin 0 2147483648 true = some h ∧
    h.offset.toNat+2147483648 ≤ 2^32 ∧
    otaRun .lp64 h [(zeros 2147483647).call] = some s ∧
    s.handle.written.toNat = 2147483648 ∧ returnedSum s = -2147483648 :=
  negative_of_length _ (zeros_length _)

variable (partition)

def partitionFrom : ℕ := 0x10000+partition.toNat*0x100000
def partitionTo : ℕ := 0x10000+(partition.toNat+1)*0x100000

/-- Inside the partition; all else in the storage is what it was. -/
structure Confined (partition : UInt32) (s : Session) : Prop where
  inside : ∀ x ∈ s.writes, ∀ a, x.1 ≤ a → a < x.1+x.2.length →
    partitionFrom partition ≤ a ∧ a < partitionTo partition
  others : ∀ storage a, ¬(partitionFrom partition ≤ a ∧ a < partitionTo partition) →
    replay storage s.writes a = storage a

def Fits (m : DataModel) (expected : ℕ) : List (Call m) → Prop :=
  AtEach fun before c => min (received before).length expected+c.chunk.length < m.sizeLimit ∧
    min ((received before).length+c.chunk.length) expected ≤ 0x100000

theorem fits_iff : Fits m expected calls ↔ NoWrap m expected calls ∧ min (received calls).length
    expected ≤ 0x100000 := by
  rw [Fits,atEach_and]
  refine and_congr_right fun _ => ⟨fun hall => ?_,fun hend before c later hsplit => ?_⟩
  · rcases eq_nil_or_concat calls with rfl | ⟨before,c,rfl⟩
    · exact (Nat.min_le_left _ _).trans (Nat.zero_le _)
    · rw [concat_eq_append] at hall ⊢
      rw [received_append,length_append]
      exact (atEach_append.mp hall).2
  · have hlen : (received calls).length =
        (received before).length+c.chunk.length+(received later).length := by
      simp [hsplit,received,add_assoc]
    omega

theorem exists_write_outside (hs : Follows h calls s)
    (hsize : (image h calls).length ≤ 0x100000) (hoffset : h.offset.toNat ≤ 0x210000)
    (hout : ¬(min (received calls).length h.expectedSize.toNat+c.chunk.length < m.sizeLimit ∧
      min ((received calls).length+c.chunk.length) h.expectedSize.toNat ≤ 0x100000)) :
    ∃ x : ℕ × Bytes, (∃ t, otaWrite m s c = some t ∧ t.writes = s.writes++[x]) ∧
      x.1 ≤ h.offset.toNat+0x100000 ∧ h.offset.toNat+0x100000 < x.1+x.2.length := by
  have haddress : (h.offset+s.handle.written).toNat = h.offset.toNat+(image h calls).length := by
    rw [UInt32.toNat_add,hs.written,Nat.mod_eq_of_lt (by omega)]
  have hlimit := m.le_sizeLimit
  rw [←image_length] at hout
  by_cases hsum : (image h calls).length+c.chunk.length < m.sizeLimit
  · have hmore : 0x100000 < min ((received calls).length+c.chunk.length) h.expectedSize.toNat :=
      not_le.mp fun hle => hout ⟨hsum,hle⟩
    have hlen : (image h calls).length = min (received calls).length h.expectedSize.toNat :=
      image_length
    have hc : c.chunk ≠ [] := fun hnil => by
      rw [hnil,length_nil,add_zero,←image_length] at hmore
      omega
    refine ⟨_,⟨_,hs.otaWrite_eq hc hsum,rfl⟩,?_⟩
    dsimp only
    rw [haddress,taken_length]
    omega
  · refine ⟨_,otaWrite_wrap hs (not_lt.mp hsum),?_⟩
    dsimp only
    rw [haddress]
    omega

/-- An update stays in its partition exactly when no sum wraps around and the caller's size or
the data end before the partition does. -/
theorem confined_iff (m : DataModel) (partition expectedSize : UInt32) (h : Handle)
    (calls : List (Call m)) (hbegin : otaBegin partition expectedSize true = some h) :
    (∃ s, otaRun m h calls = some s ∧ Confined partition s) ↔
      NoWrap m expectedSize.toNat calls ∧
        min (received calls).length expectedSize.toNat ≤ 0x100000 := by
  obtain ⟨-,-,rfl,hwritten,hcrc⟩ := otaBegin_some hbegin
  obtain ⟨hpartition,hoffset⟩ := offset_eq hbegin
  have hfrom : partitionFrom partition = h.offset.toNat := hoffset.symm
  have hto : partitionTo partition = h.offset.toNat+0x100000 := by
    rw [partitionTo]
    omega
  constructor
  · rintro ⟨s,hs,hconfined⟩
    rw [←fits_iff]
    by_contra hout
    obtain ⟨before,c,later,rfl,hbefore,hfail⟩ := first_of_not_atEach hout
    obtain ⟨hwrap,hend⟩ := fits_iff.mp hbefore
    rw [←image_length] at hend
    obtain ⟨t,ht,hfollows⟩ := otaRun_follows hwritten hcrc hwrap (by omega)
    obtain ⟨x,hwrite,hle,hlt⟩ := exists_write_outside hfollows hend (by omega) hfail
    have hin := hconfined.inside x (otaRun_mem_writes ht hwrite hs) _ hle hlt
    omega
  · rintro ⟨hwrap,hend⟩
    rw [←image_length] at hend
    obtain ⟨s,hs,hfollows⟩ := otaRun_follows hwritten hcrc hwrap (by omega)
    refine ⟨s,hs,fun x hx a hle hlt => ?_,fun storage a ha => ?_⟩
    · rcases hfollows.inside x hx with hnil | hin
      · rw [hnil,length_nil] at hlt
        omega
      · omega
    · rw [hfollows.storage,put_outside (by omega)]

theorem confined_iff_zeros : ∃ h, otaBegin 1 4 true = some h ∧
    ((∃ s, otaRun .lp64 h [(zeros 2).call] = some s ∧ Confined 1 s) ↔
      NoWrap .lp64 4 [(zeros 2).call] ∧
        min (received [(zeros 2).call]).length 4 ≤ 0x100000) :=
  ⟨_,rfl,confined_iff .lp64 1 4 _ _ rfl⟩

theorem overrun_of_length (c : Chunk .lp64) (hlen : c.bytes.length = 0x100001) :
    ∃ h s, otaBegin 0 0x100001 true = some h ∧ otaRun .lp64 h [c.call] = some s ∧
      ∃ x ∈ s.writes, x.1 ≤ partitionFrom 1 ∧ partitionFrom 1 < x.1+x.2.length := by
  refine ⟨_,_,rfl,otaRun_single c rfl (by rw [hlen]; decide),_,mem_singleton_self _,?_⟩
  dsimp only
  rw [hlen]
  decide

theorem update_overruns_partition : ∃ h s, otaBegin 0 0x100001 true = some h ∧
    otaRun .lp64 h [(zeros 0x100000).call] = some s ∧
    ∃ x ∈ s.writes, x.1 ≤ partitionFrom 1 ∧ partitionFrom 1 < x.1+x.2.length :=
  overrun_of_length _ (zeros_length _)

end

end TinyDeviceOs.Ota
