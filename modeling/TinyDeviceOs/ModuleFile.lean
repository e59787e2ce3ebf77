import TinyDeviceOs.CTypes
import TinyDeviceOs.Crc32
import TinyDeviceOs.Records

/-! The module files of `drivers/module.c`. A call that reads outside a file or an array has no
result. -/
namespace TinyDeviceOs.ModuleFile

open CTypes Crc32 LittleEndian Records Regions

def ardmodMagic : UInt32 := 0x4D4F4441
def ardmodVersion : UInt16 := 1
def ardmodMaxSymbols : ℕ := 64
def ardmodMaxDeps : ℕ := 16
def headerSize : ℕ := 100
def crcOffset : ℕ := 12
def symbolSize : ℕ := 40
def depSize : ℕ := 49

inductive ModuleType
  | driver
  | app
  | library
  | codec
  | protocol
  deriving DecidableEq

def ModuleType.value : ModuleType → UInt32
  | .driver => 0
  | .app => 1
  | .library => 2
  | .codec => 3
  | .protocol => 4

structure Header where
  magic : UInt32
  (version flags : UInt16)
  (size crc32 : UInt32)
  name : Chars 32
  versionStr : Chars 16
  (type loadAddr entryPoint bssSize dataSize symbolCount depCount manifestOffset codeOffset : UInt32)
  deriving DecidableEq

structure Symbol where
  name : Chars 32
  (address type : UInt32)
  deriving DecidableEq

structure Dep where
  name : Chars 32
  version : Chars 16
  optional : Bool
  deriving DecidableEq

abbrev Lead := UInt32 × UInt16 × UInt16 × UInt32
abbrev Tail := Chars 32 × Chars 16 × UInt32 × UInt32 × UInt32 × UInt32 × UInt32 × UInt32 ×
  UInt32 × UInt32 × UInt32

def leadFormat : Format Lead := pair word32 (pair word16 (pair word16 word32))

def tailFormat : Format Tail :=
  pair (chars 32) (pair (chars 16) (pair word32 (pair word32 (pair word32 (pair word32
    (pair word32 (pair word32 (pair word32 (pair word32 word32)))))))))

def Header.lead (h : Header) : Lead := (h.magic,h.version,h.flags,h.size)

def Header.tail (h : Header) : Tail :=
  (h.name,h.versionStr,h.type,h.loadAddr,h.entryPoint,h.bssSize,h.dataSize,h.symbolCount,
    h.depCount,h.manifestOffset,h.codeOffset)

def headerOf (lead : Lead) (crc32 : UInt32) (tail : Tail) : Header :=
  let (magic,version,flags,size) := lead
  let (name,versionStr,type,loadAddr,entryPoint,bssSize,dataSize,symbolCount,depCount,
    manifestOffset,codeOffset) := tail
  ⟨magic,version,flags,size,crc32,name,versionStr,type,loadAddr,entryPoint,bssSize,dataSize,
    symbolCount,depCount,manifestOffset,codeOffset⟩

def headerFormat : Format Header :=
  via (pair leadFormat (pair word32 tailFormat)) (fun h => (h.lead,h.crc32,h.tail))
    (fun x => headerOf x.1 x.2.1 x.2.2) fun _ => rfl

def symbolFormat : Format Symbol :=
  via (pair (chars 32) (pair word32 word32)) (fun s => (s.name,s.address,s.type))
    (fun x => ⟨x.1,x.2.1,x.2.2⟩) fun _ => rfl

def depFormat : Format Dep :=
  via (pair (chars 32) (pair (chars 16) flag)) (fun d => (d.name,d.version,d.optional))
    (fun x => ⟨x.1,x.2.1,x.2.2⟩) fun _ => rfl

variable (name : CString) (type : ModuleType) (code : Bytes)

section

variable (symbols : List Symbol) (deps : List Dep)

def newHeader : Header where
  magic := ardmodMagic
  version := ardmodVersion
  flags := 0
  size := UInt32.ofNat
    (headerSize+(symbols.length*symbolSize+deps.length*depSize)+code.length)
  crc32 := 0
  name := padded 32 (name.bytes.take 31)
  versionStr := padded 16 [49,46,48,46,48]
  type := type.value
  loadAddr := 0
  entryPoint := 0
  bssSize := 0
  dataSize := 0
  symbolCount := UInt32.ofNat symbols.length
  depCount := UInt32.ofNat deps.length
  manifestOffset := UInt32.ofNat headerSize
  codeOffset := UInt32.ofNat (headerSize+(symbols.length*symbolSize+deps.length*depSize))

/-- Before its checksum is filled in. The sizes fit a `size_t`. -/
def unsealed : Bytes :=
  let totalSize := headerSize+(symbols.length*symbolSize+deps.length*depSize)+code.length
  let header := newHeader name type code symbols deps
  let data := patch 0 (List.replicate totalSize 0) 0 (headerFormat.encode header)
  let data := patch 0 data header.manifestOffset.toNat (encodeAll symbolFormat symbols)
  let depOffset := UInt32.ofNat (header.manifestOffset.toNat+symbols.length*symbolSize)
  let data := patch 0 data depOffset.toNat (encodeAll depFormat deps)
  patch 0 data header.codeOffset.toNat code

/-- `none` is -1; `memory` tells whether `calloc` succeeds. -/
def ardmodCreate (memory : Bool) : Option Bytes :=
  if ardmodMaxSymbols < symbols.length then none
  else if ardmodMaxDeps < deps.length then none
  else if memory then
    let data := unsealed name type code symbols deps
    some (patch 0 data crcOffset (word32.encode (crc32Update 0 data)))
  else none

end

section

def ardmodVerifyCrc (data : Bytes) : Bool :=
  if data.length < headerSize then false
  else
    let headerCopy := data.take headerSize
    let storedCrc := (headerFormat.decode headerCopy).crc32
    let crc := crc32Update 0 (patch 0 headerCopy crcOffset (word32.encode 0))
    let crc := if headerSize < data.length then crc32Update crc (data.drop headerSize) else crc
    crc = storedCrc

/-- The bytes that were copied, or null pointers. -/
structure Handle where
  header : Header
  data : Bytes
  (symbols deps : Option Bytes)
  deriving DecidableEq

/-- Which allocations succeed. -/
structure Memory where
  (handle data symbols deps : Bool)

/-- No bytes may be copied from anywhere. -/
def readAt (bytes : Bytes) (offset size : ℕ) : Option Bytes :=
  if size = 0 ∨ offset+size ≤ bytes.length then some (slice bytes offset size) else none

variable (m : DataModel)

def symbolBytes (h : Header) : ℕ := h.symbolCount.toNat*symbolSize % m.sizeLimit

def depBytes (h : Header) : ℕ := h.depCount.toNat*depSize % m.sizeLimit

def depOffset (h : Header) : UInt32 :=
  UInt32.ofNat (h.manifestOffset.toNat+h.symbolCount.toNat*symbolSize)

def parseSymbols (memory : Bool) (h : Header) (data : Bytes) : Option (Option Bytes) :=
  if 0 < h.symbolCount.toNat ∧ 0 < h.manifestOffset.toNat ∧ memory then
    (readAt data h.manifestOffset.toNat (symbolBytes m h)).map some
  else some none

def parseDeps (memory : Bool) (h : Header) (data : Bytes) : Option (Option Bytes) :=
  if 0 < h.depCount.toNat ∧ memory then
    (readAt data (depOffset h).toNat (depBytes m h)).map some
  else some none

/-- The checks of `ardmod_load`. -/
def accepts (memory : Memory) (data : Bytes) : Bool :=
  headerSize ≤ data.length ∧ memory.handle ∧ (headerFormat.decode data).magic = ardmodMagic ∧
    (headerFormat.decode data).version = ardmodVersion ∧ ardmodVerifyCrc data ∧ memory.data

/-- The inner `none` is a null pointer. -/
def ardmodLoad (memory : Memory) (data : Bytes) : Option (Option Handle) :=
  if accepts memory data then
    (parseSymbols m memory.symbols (headerFormat.decode data) data).bind fun symbols =>
      (parseDeps m memory.deps (headerFormat.decode data) data).map fun deps =>
        some ⟨headerFormat.decode data,data,symbols,deps⟩
  else some none

/-- Whether the text in an array is the string. -/
def strcmpEq : Bytes → Bytes → Option Bool
  | [],_ => none
  | x::_,[] => some (x = 0)
  | x::xs,y::ys => if x = y then strcmpEq xs ys else some false

/-- With the number of symbols that are left. -/
def searchSymbol (h : Handle) (name : CString) : ℕ → ℕ → Option UInt32
  | 0,_ => some 0
  | n+1,i => h.symbols.bind fun symbols =>
    (strcmpEq (symbols.drop (i*symbolSize)) name.bytes).bind fun same =>
      if same then (readAt symbols (i*symbolSize+32) 4).map fun bytes =>
        h.header.loadAddr+word32.decode bytes
      else searchSymbol h name n (i+1)

/-- 0 is the null pointer. -/
def ardmodGetSymbol (h : Handle) (name : CString) : Option UInt32 :=
  searchSymbol h name h.header.symbolCount.toNat 0

def ardmodGetSymbols (h : Handle) (maxSymbols : ℕ) : Option Bytes :=
  let size := min h.header.symbolCount.toNat maxSymbols*symbolSize % m.sizeLimit
  if size = 0 then some [] else h.symbols.bind fun symbols => readAt symbols 0 size

end

end TinyDeviceOs.ModuleFile
