import TinyDeviceOs.LittleEndian
import TinyDeviceOs.Regions

/-! The configuration store of `fs/config_store.c`. Entries are found by a hash and a length, and
their values lie in one data buffer. A call that leaves the allocated memory has no result. -/
namespace TinyDeviceOs.ConfigStore

open LittleEndian Regions

def configMagic : ℕ := 0x43464753
def configVersion : UInt16 := 1
def configTypeString : UInt16 := 1
def configTypeInt : UInt16 := 2
def configTypeBool : UInt16 := 3
def configTypeBlob : UInt16 := 4
def headerSize : ℕ := 20
def entrySize : ℕ := 16

/-- The bytes of a C string, without its NUL. -/
structure CString where
  bytes : Bytes
  noNul : 0 ∉ bytes
  deriving DecidableEq

structure Entry where
  keyHash : UInt32
  (keyLen type : UInt16)
  (offset size : UInt32)
  deriving DecidableEq

/-- The entries in use, the number allocated, and the allocated data. -/
structure Store where
  (version reserved : UInt16)
  (dataOffset dataSize : UInt32)
  entries : List Entry
  capacity : ℕ
  data : Bytes
  dirty : Bool
  deriving DecidableEq

/-- What the store sees of a key. -/
structure Ident where
  hash : UInt32
  len : ℕ
  deriving DecidableEq

section

variable (signedChar : Bool)

/-- Whether `char` is signed depends on the target. -/
def charValue (c : UInt8) : UInt32 :=
  if signedChar ∧ 128 ≤ c then c.toUInt32-256 else c.toUInt32

def hashKey (key : CString) : UInt32 :=
  key.bytes.foldl (fun hash c => ((hash <<< 5)+hash)+charValue signedChar c) 5381

def identOf (key : CString) : Ident :=
  ⟨hashKey signedChar key,key.bytes.length⟩

end

def Entry.isFor (id : Ident) (e : Entry) : Bool := e.keyHash = id.hash ∧ e.keyLen.toNat = id.len

section

variable (s : Store) (id : Ident)

def configFindEntry : Option ℕ := s.entries.findIdx? (Entry.isFor id)

/-- `none` is an access outside the memory; the flag is 0, not -1. -/
abbrev Result := Option (Bool × Store)

def configReserveData (size : ℕ) : Bool := s.dataSize.toNat+size ≤ 65536

def newEntry (type : UInt16) (value : Bytes) : Entry where
  keyHash := id.hash
  keyLen := UInt16.ofNat id.len
  type := type
  offset := s.dataSize
  size := UInt32.ofNat value.length

/-- `alloc` tells whether `realloc` succeeds; new memory is zero. -/
def addEntry (type : UInt16) (value : Bytes) (alloc : Bool) : Result :=
  if 1024 ≤ s.entries.length then some (false,s)
  else if configReserveData s value.length = false then some (false,s)
  else if s.capacity ≤ s.entries.length then none
  else
    let s := { s with entries := s.entries++[newEntry s id type value] }
    if alloc then
      some (true,{ s with
        data := patch 0 (resize 0 s.data (s.dataSize.toNat+value.length)) s.dataSize.toNat value
        dataSize := s.dataSize+UInt32.ofNat value.length
        dirty := true })
    else some (false,{ s with data := [] })

def overwrite (i : ℕ) (e : Entry) (type : UInt16) (value : Bytes) : Result :=
  if e.offset.toNat+value.length ≤ s.data.length then
    some (true,{ s with
      data := patch 0 s.data e.offset.toNat value
      entries := s.entries.set i { e with size := UInt32.ofNat value.length, type := type }
      dirty := true })
  else none

def removeEntry (i : ℕ) : Store :=
  { s with entries := s.entries.eraseIdx i, dirty := true }

end

/-- An entry that is too small is deleted, and the setter starts again. -/
def setEntry (id : Ident) (type : UInt16) (value : Bytes) (alloc : Bool) : ℕ → Store → Result
  | 0,s => addEntry s id type value alloc
  | fuel+1,s => match configFindEntry s id with
    | none => addEntry s id type value alloc
    | some i => match s.entries[i]? with
      | none => none
      | some e =>
        if value.length ≤ e.size.toNat then overwrite s i e type value
        else setEntry id type value alloc fuel (removeEntry s i)

section

variable (signedChar : Bool) (s : Store)

def configSet (key : CString) (type : UInt16) (value : Bytes) (alloc : Bool) : Result :=
  setEntry (identOf signedChar key) type value alloc s.entries.length s

def configSetString (key value : Option CString) (alloc : Bool) : Result :=
  match key,value with
  | some key,some value => configSet signedChar s key configTypeString (value.bytes++[0]) alloc
  | _,_ => some (false,s)

variable (key : Option CString)

def configSetInt (value : Int32) (alloc : Bool) : Result :=
  match key with
  | some key => configSet signedChar s key configTypeInt (toBytes 4 value.toUInt32.toNat) alloc
  | none => some (false,s)

def configSetBool (value : Bool) (alloc : Bool) : Result :=
  match key with
  | some key => configSet signedChar s key configTypeBool [if value then 1 else 0] alloc
  | none => some (false,s)

/-- The data are the `size` bytes at the pointer. -/
def configSetBlob (data : Option Bytes) (alloc : Bool) : Result :=
  match key,data with
  | some key,some data =>
    if data = [] then some (false,s) else configSet signedChar s key configTypeBlob data alloc
  | _,_ => some (false,s)

def typedEntry (type : UInt16) : Option Entry :=
  match key with
  | none => none
  | some key => ((configFindEntry s (identOf signedChar key)).bind fun i => s.entries[i]?).filter
      fun e => e.type = type

/-- A copy of 0 bytes reads nothing. -/
def readData (offset size : ℕ) : Option Bytes :=
  if size = 0 ∨ offset+size ≤ s.data.length then some (slice s.data offset size) else none

/-- The string at the pointer; the default may be null. -/
def configGetString (default : Option Bytes) : Option (Option Bytes) :=
  match typedEntry signedChar s key configTypeString with
  | none => some default
  | some e =>
    let rest := s.data.drop e.offset.toNat
    if 0 ∈ rest then some (some (rest.takeWhile (· ≠ 0))) else none

def configGetInt (default : Int32) : Option Int32 :=
  match typedEntry signedChar s key configTypeInt with
  | none => some default
  | some e => (readData s e.offset.toNat 4).map fun bytes => (UInt32.ofNat (ofBytes bytes)).toInt32

def configGetBool (default : Bool) : Option Bool :=
  match typedEntry signedChar s key configTypeBool with
  | none => some default
  | some e => (readData s e.offset.toNat 1).map fun bytes => bytes ≠ [0]

/-- The bytes copied; an inner `none` is -1. -/
def configGetBlob (maxSize : ℕ) : Option (Option Bytes) :=
  if maxSize = 0 then some none
  else match typedEntry signedChar s key configTypeBlob with
    | none => some none
    | some e => (readData s e.offset.toNat (min e.size.toNat maxSize)).map some

def configDelete : Bool × Store :=
  match key with
  | none => (false,s)
  | some key => match configFindEntry s (identOf signedChar key) with
    | none => (false,s)
    | some i => (true,removeEntry s i)

def configExists : Bool :=
  match key with
  | none => false
  | some key => (configFindEntry s (identOf signedChar key)).isSome

end

inductive Value
  | string (v : CString)
  | int (v : Int32)
  | bool (v : Bool)
  | blob (v : Bytes)
  deriving DecidableEq

/-- `alloc` tells whether memory can be had. -/
inductive Change
  | set (value : Value) (alloc : Bool)
  | delete
  deriving DecidableEq

def configSetValue (signedChar : Bool) (s : Store) (key : CString) (alloc : Bool) : Value → Result
  | .string v => configSetString signedChar s (some key) (some v) alloc
  | .int v => configSetInt signedChar s (some key) v alloc
  | .bool v => configSetBool signedChar s (some key) v alloc
  | .blob v => configSetBlob signedChar s (some key) (some v) alloc

def Change.apply (signedChar : Bool) (s : Store) (key : CString) : Change → Result
  | .set value alloc => configSetValue signedChar s key alloc value
  | .delete => some (configDelete signedChar s (some key))

variable (s : Store)

def headerBytes : Bytes :=
  toBytes 4 configMagic++le16 s.version++le16 s.reserved++toBytes 4 s.entries.length++
    toBytes 4 s.dataOffset.toNat++toBytes 4 s.dataSize.toNat

def entryBytes (e : Entry) : Bytes :=
  toBytes 4 e.keyHash.toNat++le16 e.keyLen++le16 e.type++toBytes 4 e.offset.toNat++
    toBytes 4 e.size.toNat

/-- Nothing is written for a count or a size of 0. -/
def configWriteHeader (file : Bytes) : Bytes :=
  let file := patch 0 file 0 (headerBytes s)
  let file := if s.entries = [] then file
    else patch 0 file headerSize (s.entries.flatMap entryBytes)
  if s.dataSize = 0 then file
  else patch 0 file s.dataOffset.toNat (s.data.take s.dataSize.toNat)

def configStoreFlush (file : Bytes) : Store × Bytes :=
  if s.dirty then ({ s with dirty := false },configWriteHeader s file) else (s,file)

variable (bytes : Bytes) (offset : ℕ)

def field16 : UInt16 := UInt16.ofNat (ofBytes (slice bytes offset 2))
def field32 : UInt32 := UInt32.ofNat (ofBytes (slice bytes offset 4))

def entryAt : Entry where
  keyHash := field32 bytes offset
  keyLen := field16 bytes (offset+4)
  type := field16 bytes (offset+6)
  offset := field32 bytes (offset+8)
  size := field32 bytes (offset+12)

/-- After `config_store_open`; `none` is -1. A short header is filled up with zeros. -/
def configStoreInit (file : Bytes) (alloc : Bool) : Option Store :=
  let header := resize 0 (file.take headerSize) headerSize
  if file.length < headerSize then
    if alloc then some {
      version := configVersion
      reserved := field16 header 6
      dataOffset := UInt32.ofNat (headerSize+1024*entrySize)
      dataSize := 0
      entries := []
      capacity := 1024
      data := []
      dirty := false }
    else none
  else
    let count := (field32 header 8).toNat
    let dataOffset := field32 header 12
    let dataSize := field32 header 16
    if (field32 header 0).toNat ≠ configMagic then none
    else if 0 < count ∧ (alloc = false ∨ file.length < headerSize+count*entrySize) then none
    else if 0 < dataSize.toNat ∧ (alloc = false ∨
        file.length < dataOffset.toNat+dataSize.toNat) then none
    else some {
      version := field16 header 4
      reserved := field16 header 6
      dataOffset := dataOffset
      dataSize := dataSize
      entries := (List.range count).map fun i => entryAt file (headerSize+i*entrySize)
      capacity := count
      data := slice file dataOffset.toNat dataSize.toNat
      dirty := false }

end TinyDeviceOs.ConfigStore
