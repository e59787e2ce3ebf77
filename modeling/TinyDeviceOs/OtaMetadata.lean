import TinyDeviceOs.OtaImage
import TinyDeviceOs.Records

/-! The record that `ota_end` of `fs/ota.c` leaves at the start of the storage. -/
namespace TinyDeviceOs.Ota

open LittleEndian CTypes Crc32 Records Regions List Option

def otaMagic : UInt32 := 0x4F54414D
def otaVersion : UInt16 := 1
def otaPartitionOta0 : UInt32 := 0
def otaStateNew : UInt32 := 0
def otaStatePendingVerify : UInt32 := 1

structure Metadata where
  magic : UInt32
  (version reserved : UInt16)
  (sequence activePartition nextPartition activeCrc32 nextCrc32 activeSize nextSize : UInt32)
  (activeState nextState timestamp : UInt32)
  deriving DecidableEq

def metadataFormat : Format Metadata :=
  via (pair word32 (pair word16 (pair word16 (pair word32 (pair word32 (pair word32 (pair word32
    (pair word32 (pair word32 (pair word32 (pair word32 (pair word32 word32))))))))))))
    (fun d => (d.magic,d.version,d.reserved,d.sequence,d.activePartition,d.nextPartition,
      d.activeCrc32,d.nextCrc32,d.activeSize,d.nextSize,d.activeState,d.nextState,d.timestamp))
    (fun (a,b,c,d,e,f,g,h,i,j,k,l,t) => ⟨a,b,c,d,e,f,g,h,i,j,k,l,t⟩) fun _ => rfl

abbrev Storage := ℕ → UInt8

section

variable (storage : Storage)

def metadataAt : Metadata :=
  metadataFormat.decode ((range metadataFormat.size).map storage)

/-- `read` tells whether `hal_storage_read` succeeds; `none` is -1. -/
def otaReadMetadata (read : Bool) : Option Metadata :=
  if read ∧ (metadataAt storage).magic = otaMagic then some (metadataAt storage) else none

def newMetadata (h : Handle) : Metadata where
  magic := otaMagic
  version := otaVersion
  reserved := 0
  sequence := 1
  activePartition := otaPartitionOta0
  nextPartition := h.partition
  activeCrc32 := 0
  nextCrc32 := 0
  activeSize := 0
  nextSize := 0
  activeState := 0
  nextState := 0
  timestamp := 0

def nextMetadata (h : Handle) (verify : Bool) (old : Metadata) : Metadata :=
  { old with
    sequence := old.sequence+1
    nextPartition := h.partition
    nextSize := h.written
    nextCrc32 := h.crc32
    nextState := if verify then otaStatePendingVerify else otaStateNew
    timestamp := 0 }

/-- `none` is -1: the write or the `hal_storage_sync` after it fails. -/
def otaEnd (h : Handle) (verify read write sync : Bool) : Option Storage :=
  let record := (otaReadMetadata storage read).elim (newMetadata h) (nextMetadata h verify)
  if write ∧ sync then some (put storage 0 (metadataFormat.encode record)) else none

end

theorem metadataAt_put : metadataAt (put storage 0 (metadataFormat.encode d)) = d := by
  have hlen := metadataFormat.encode_length d
  have hbytes : (range metadataFormat.size).map (put storage 0 (metadataFormat.encode d)) =
      metadataFormat.encode d++[] := by
    refine ext_getElem (by simp [hlen]) fun i hi _ => ?_
    have hin : i < (metadataFormat.encode d).length := by simpa [hlen] using hi
    simp [put,getElem?_eq_getElem hin]
  rw [metadataAt,hbytes,metadataFormat.decode_encode]

theorem otaEnd_read {storage storage' : Storage} {h : Handle} {verify read write sync : Bool}
    (hend : otaEnd storage h verify read write sync = some storage') :
    otaReadMetadata storage' true =
      some ((otaReadMetadata storage read).elim (newMetadata h) (nextMetadata h verify)) := by
  rw [otaEnd] at hend
  split_ifs at hend
  obtain rfl := some.inj hend
  rw [otaReadMetadata,metadataAt_put,if_pos]
  refine ⟨rfl,?_⟩
  rw [otaReadMetadata]
  split_ifs with hvalid
  · exact hvalid.2
  · rfl

/-- What the session has put into the storage. -/
def stored (s : Session) : Bytes := s.writes.flatMap Prod.snd

section

variable {m : DataModel} {partition expectedSize : UInt32} {h : Handle} {s : Session}
  {calls : List (Call m)}

theorem otaRun_handle (hbegin : otaBegin partition expectedSize true = some h)
    (hs : otaRun m h calls = some s) : s.handle.partition = partition ∧
      s.handle.expectedSize = expectedSize ∧
      s.handle.written = UInt32.ofNat (stored s).length ∧
      s.handle.crc32 = crc32Update 0 (stored s) := by
  induction calls using reverseRecOn generalizing s with
  | nil =>
    rw [otaBegin] at hbegin
    split_ifs at hbegin
    obtain rfl := some.inj hbegin
    obtain rfl := some.inj hs
    exact ⟨rfl,rfl,rfl,(crc32Update_nil 0).symm⟩
  | append_singleton calls c ih =>
    rw [otaRun_append] at hs
    obtain ⟨t,ht,hs⟩ := bind_eq_some_iff.mp hs
    obtain ⟨hp,he,hw,hc⟩ := ih ht
    by_cases hchunk : c.chunk = []
    · rw [otaWrite_idle hchunk] at hs
      obtain rfl := some.inj hs
      exact ⟨hp,he,hw,hc⟩
    · rw [otaWrite_chunk hchunk] at hs
      split_ifs at hs with hlen
      obtain rfl := some.inj hs
      refine ⟨hp,he,?_,?_⟩
      · simp [stored,hw,min_eq_left (not_lt.mp hlen),UInt32.ofNat_add]
      · simp [stored,hc,otaCrc32Update,crc32Update_append]

end

def Metadata.active (d : Metadata) : List UInt32 :=
  [d.activePartition,d.activeCrc32,d.activeSize,d.activeState]

/-- About the image of the session, with the active image of before. -/
structure Describes (partition : UInt32) (verify : Bool) (storage : Storage) (s : Session)
    (d : Metadata) : Prop where
  complete : s.handle.written = s.handle.expectedSize
  partition : d.nextPartition = partition
  size : d.nextSize.toNat = (stored s).length
  crc32 : Crc.toPoly d.nextCrc32.toBitVec = checksum (stored s)
  state : d.nextState = if verify then otaStatePendingVerify else otaStateNew
  active : ∀ old ∈ otaReadMetadata storage true, d.active = old.active

/-- Of the metadata that `ota_end` has read. -/
def Recorded (verify : Bool) (storage : Storage) (s : Session) : Option Metadata → Prop
  | some d => (stored s).length < 2^32 ∧
    ∀ old ∈ otaReadMetadata storage true, d.active = old.active
  | none => stored s = [] ∧ verify = false ∧
    ∀ old ∈ otaReadMetadata storage true, [0,0,0,0] = old.active

section

variable {partition : UInt32} {verify : Bool} {storage : Storage} {s : Session}

theorem describes_next_iff (hp : s.handle.partition = partition) (hw : s.handle.written =
    UInt32.ofNat (stored s).length) (hc : s.handle.crc32 = crc32Update 0 (stored s)) : Describes
    partition verify storage s (nextMetadata s.handle verify d) ↔ s.handle.written =
    s.handle.expectedSize ∧ Recorded verify storage s (some d) := by
  constructor
  · intro hd
    exact ⟨hd.complete,hd.size▸UInt32.toNat_lt _,hd.active⟩
  · rintro ⟨hcomplete,hlt,hactive⟩
    refine ⟨hcomplete,hp,?_,?_,rfl,hactive⟩
    · change s.handle.written.toNat = _
      rw [hw,UInt32.toNat_ofNat_of_lt' hlt]
    · change Crc.toPoly s.handle.crc32.toBitVec = _
      rw [hc,crc32Update_checksum]

theorem describes_new_iff (hp : s.handle.partition = partition) :
    Describes partition verify storage s (newMetadata s.handle) ↔
      s.handle.written = s.handle.expectedSize ∧ Recorded verify storage s none := by
  constructor
  · intro hd
    refine ⟨hd.complete,length_eq_zero_iff.mp hd.size.symm,?_,hd.active⟩
    cases verify with
    | false => rfl
    | true => exact absurd hd.state (by simp [newMetadata,otaStatePendingVerify])
  · rintro ⟨hcomplete,hnil,rfl,hactive⟩
    refine ⟨hcomplete,hp,?_,?_,rfl,hactive⟩
    · rw [hnil]
      rfl
    · rw [hnil,←crc32Update_checksum,crc32Update_nil]
      rfl

end

def blank : Storage := fun _ => 0

def oneByte : Handle := ⟨1,0x110000,1,0,0⟩

def seven : Call .lp64 := ⟨some ⟨[7],by decide⟩,true⟩

end TinyDeviceOs.Ota
