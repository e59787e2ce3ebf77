import Mathlib.Tactic
import TinyDeviceOs.LinkedList

/-! The pool allocator of `kernel/alloc.c`. Pointers are addresses, `none` is null. A header and
the bytes under it are kept apart, which is exact as long as no header is written over. -/
namespace TinyDeviceOs.Alloc

open LinkedList

/-- The two kinds of build: eight-byte and four-byte pointers. -/
inductive Target
  | lp64
  | ilp32
deriving DecidableEq

namespace Target

def word : Target → ℕ
  | lp64 => 2^64
  | ilp32 => 2^32

/-- Twelve bytes, padded to the pointer size, and four pointers. -/
def blockOverhead : Target → ℕ
  | lp64 => 48
  | ilp32 => 28

def poolOverhead : Target → ℕ
  | lp64 => 304
  | ilp32 => 152

end Target

def tlsfSignature : ℕ := 0x544C5346
def tlsfBlockAlign : ℕ := 4
def tlsfMaxPoolSize : ℕ := 256*1024

/-- `TLSF_BLOCK_FREE` and `TLSF_BLOCK_USED` are fields of their own. -/
structure Header where
  (signature size : ℕ)
  (free used : Bool)
  (prevFree nextFree prevPhys nextPhys : Option ℕ)
deriving DecidableEq

/-- `tlsf_pool_t` with the buffer that it manages. -/
structure Pool (t : Target) where
  (signature totalSize usedSize minFree : ℕ)
  freeList : Fin 32 → Option ℕ
  blockList : Option ℕ
  memory : ℕ
  headers : ℕ → Header
  bytes : ℕ → UInt8

/-- Memory with whatever it holds, read as headers and as bytes. -/
structure Buffer (t : Target) where
  (addr size : ℕ)
  headers : ℕ → Header
  bytes : ℕ → UInt8
  fits : addr+size ≤ t.word

variable {t : Target}

section

variable (t)

def minBlockSize : ℕ := t.blockOverhead+tlsfBlockAlign

def alignUp (x : ℕ) : ℕ :=
  (x+tlsfBlockAlign-1)%t.word-(x+tlsfBlockAlign-1)%t.word%tlsfBlockAlign

def wordSub (a b : ℕ) : ℕ := (a+t.word-b%t.word)%t.word

def tlsfFls (x : ℕ) : ℕ :=
  let (x,r) := if 0x10000 ≤ x then (x>>>16,16) else (x,0)
  let (x,r) := if 0x100 ≤ x then (x>>>8,r+8) else (x,r)
  let (x,r) := if 0x10 ≤ x then (x>>>4,r+4) else (x,r)
  let (x,r) := if 0x4 ≤ x then (x>>>2,r+2) else (x,r)
  if 0x2 ≤ x then r+1 else r

def tlsfGetFlIndex (size : ℕ) : ℕ := tlsfFls (size%2^32)

def tlsfGetIndex (size : ℕ) : Fin 32 :=
  if h : tlsfGetFlIndex size < 32 then ⟨tlsfGetFlIndex size,h⟩ else 31

def blockFromPtr (ptr : ℕ) : ℕ := ptr-t.blockOverhead
def ptrFromBlock (block : ℕ) : ℕ := block+t.blockOverhead

end

section

variable (p : Pool t)

def Pool.modify (b : ℕ) (f : Header → Header) : Pool t :=
  { p with headers := Function.update p.headers b (f (p.headers b)) }

def Pool.modifyAt (b : Option ℕ) (f : Header → Header) : Pool t :=
  match b with
  | none => p
  | some b => p.modify b f

def Pool.setFreeList (idx : Fin 32) (b : Option ℕ) : Pool t :=
  { p with freeList := Function.update p.freeList idx b }

variable (block : ℕ)

def blockInsertFree : Pool t :=
  let idx := tlsfGetIndex (p.headers block).size
  let head := p.freeList idx
  let p := p.modify block fun h => { h with free := true, nextFree := head, prevFree := none }
  let p := p.modifyAt head fun h => { h with prevFree := some block }
  p.setFreeList idx (some block)

def blockRemoveFree : Pool t :=
  let idx := tlsfGetIndex (p.headers block).size
  let next := (p.headers block).nextFree
  let p := match (p.headers block).prevFree with
    | some prev => p.modify prev fun h => { h with nextFree := next }
    | none => p.setFreeList idx next
  let p := p.modifyAt (p.headers block).nextFree
    fun h => { h with prevFree := (p.headers block).prevFree }
  p.modify block fun h => { h with free := false }

/-- A new block at `new` behind `block`, which keeps `size` bytes. -/
def carve (block size new remaining : ℕ) : Pool t :=
  let next := (p.headers block).nextPhys
  let p := p.modify new fun h => { h with
    signature := tlsfSignature
    size := remaining%2^32
    free := false
    used := false
    prevPhys := some block
    nextPhys := next }
  let p := p.modifyAt next fun h => { h with prevPhys := some new }
  p.modify block fun h => { h with nextPhys := some new, size := size%2^32 }

/-- The second component is the new block, if there is one. -/
def blockSplit (block size : ℕ) : Pool t × Option ℕ :=
  let remaining := wordSub t (wordSub t (p.headers block).size size) t.blockOverhead
  if remaining < minBlockSize t then (p,none)
  else
    let new := (block+size+t.blockOverhead)%t.word
    (blockInsertFree (carve p block size new remaining) new,some new)

/-- The block takes over the one behind it. -/
def absorb (block next : ℕ) : Pool t :=
  let behind := (p.headers next).nextPhys
  let p := p.modify block fun h => { h with
    size := (h.size+t.blockOverhead+(p.headers next).size)%2^32
    nextPhys := behind }
  p.modifyAt behind fun h => { h with prevPhys := some block }

def freeNeighbour (b : Option ℕ) : Option ℕ :=
  b.filter fun b => (p.headers b).free

/-- The first half of `block_merge`. -/
def mergePrev : Pool t × ℕ :=
  match freeNeighbour p (p.headers block).prevPhys with
  | some prev => (absorb (blockRemoveFree p prev) prev block,prev)
  | none => (p,block)

def mergeNext : Pool t × ℕ :=
  match freeNeighbour p (p.headers block).nextPhys with
  | some next => (absorb (blockRemoveFree p next) block next,block)
  | none => (p,block)

/-- `block_merge`, with the block that is left. -/
def blockMerge : Pool t × ℕ :=
  mergeNext (mergePrev p block).1 (mergePrev p block).2

end

def initPool (mem : Buffer t) : Pool t :=
  let total := mem.size-t.poolOverhead
  let memory := mem.addr+t.poolOverhead
  let p : Pool t := ⟨tlsfSignature,total,0,total,fun _ => none,some memory,memory,mem.headers,
    mem.bytes⟩
  p.modify memory fun h => { h with
    signature := tlsfSignature
    size := (total-t.blockOverhead)%2^32
    free := false
    used := false
    prevPhys := none
    nextPhys := none }

def tlsfCreate (mem : Option (Buffer t)) : Option (Pool t) :=
  match mem with
  | none => none
  | some mem =>
    if mem.size < t.poolOverhead+minBlockSize t then none
    else some (blockInsertFree (initPool mem) (initPool mem).memory)

section

variable (p : Pool t)

/-- The blocks that a loop over one free list visits. -/
def bucket (idx : Fin 32) : List ℕ :=
  walk (fun b => (p.headers b).nextFree) p.totalSize (p.freeList idx)

def tlsfPoolFreeSize : ℕ :=
  ((List.finRange 32).flatMap (bucket p)).foldl
    (fun free b => (free+((p.headers b).size+t.blockOverhead))%t.word) 0

/-- From the first bucket or a later one. -/
def findBlock (total : ℕ) : Option ℕ :=
  (List.finRange 32).findSome? fun fl =>
    if fl < tlsfGetIndex total then none
    else if fl = tlsfGetIndex total then
      (bucket p fl).find? fun b => decide (total ≤ (p.headers b).size)
    else p.freeList fl

def trim (block size total : ℕ) : Pool t :=
  if (total+minBlockSize t)%t.word ≤ (p.headers block).size then (blockSplit p block size).1 else p

def markUsed (block : ℕ) : Pool t :=
  { p.modify block fun h => { h with used := true } with
    usedSize := (p.usedSize+((p.headers block).size+t.blockOverhead))%t.word }

def updateMinFree : Pool t :=
  { p with minFree := min p.minFree (tlsfPoolFreeSize p) }

def tlsfMalloc (size : ℕ) : Pool t × Option ℕ :=
  if size = 0 then (p,none)
  else
    let size := alignUp t size
    let total := (size+t.blockOverhead)%t.word
    match findBlock p total with
    | none => (p,none)
    | some block => 
      (updateMinFree (markUsed (trim (blockRemoveFree p block) block size total) block),
        some (ptrFromBlock t block))

def unmarkUsed (block : ℕ) : Pool t :=
  { p.modify block fun h => { h with used := false } with
    usedSize := wordSub t p.usedSize ((p.headers block).size+t.blockOverhead) }

def release (block : ℕ) : Pool t :=
  let m := blockMerge (unmarkUsed p block) block
  blockInsertFree m.1 m.2

def tlsfFree (ptr : Option ℕ) : Pool t :=
  match ptr with
  | none => p
  | some ptr =>
    let block := blockFromPtr t ptr
    if (p.headers block).signature ≠ tlsfSignature then p
    else if (p.headers block).used = false then p
    else release p block

def memcpy (dst src n : ℕ) : Pool t :=
  { p with bytes := fun a => if dst ≤ a ∧ a < dst+n then p.bytes (src+(a-dst)) else p.bytes a }

def roomBehind (block total : ℕ) : Option ℕ :=
  (freeNeighbour p (p.headers block).nextPhys).filter fun next =>
    decide (total ≤ ((p.headers block).size+t.blockOverhead+(p.headers next).size)%t.word)

/-- The last branch of `tlsf_realloc`; `none` when `memcpy` overruns. -/
def moveBlock (ptr size : ℕ) : Option (Pool t × Option ℕ) :=
  let m := tlsfMalloc p size
  match m.2 with
  | none => some (m.1,none)
  | some new =>
    let n := (m.1.headers (blockFromPtr t ptr)).size
    if (m.1.headers (blockFromPtr t new)).size < n then none
    else some (tlsfFree (memcpy m.1 new ptr n) (some ptr),some new)

def tlsfRealloc (ptr : Option ℕ) (size : ℕ) : Option (Pool t × Option ℕ) :=
  match ptr with
  | none => some (tlsfMalloc p size)
  | some ptr =>
    if size = 0 then some (tlsfFree p (some ptr),none)
    else
      let block := blockFromPtr t ptr
      if (p.headers block).signature ≠ tlsfSignature then some (p,none)
      else
        let size := alignUp t size
        let total := (size+t.blockOverhead)%t.word
        if total ≤ (p.headers block).size then some (trim p block size total,some ptr)
        else match roomBehind p block total with
          | some next =>
            some (trim (absorb (blockRemoveFree p next) block next) block size total,some ptr)
          | none => moveBlock p ptr size

/-- `ALIGN_UP(x, align)` in `size_t`. -/
def alignTo (t : Target) (x align : ℕ) : ℕ :=
  wordSub t (x+align) 1&&&(t.word-1-wordSub t align 1)

/-- From the block that was allocated to the address handed out. -/
def alignOffset (t : Target) (raw align : ℕ) : ℕ :=
  let offset := wordSub t (alignTo t raw align) raw
  if offset ≠ 0 ∧ offset < minBlockSize t then wordSub t (alignTo t raw align+align) raw
  else offset

/-- The end of `tlsf_memalign`; `none` when the new header would not lie in the payload. -/
def recut (block offset size : ℕ) : Option (Pool t × Option ℕ) :=
  if offset < t.blockOverhead ∨ (p.headers block).size < offset then none
  else
    let new := block+offset
    let remaining := (p.headers block).size-offset
    let p := carve (blockRemoveFree p block) block (offset-t.blockOverhead) new remaining
    let p := markUsed (blockInsertFree p block) new
    let p := if (size+minBlockSize t)%t.word ≤ (p.headers new).size then (blockSplit p new size).1
      else p
    some (p,some (ptrFromBlock t new))

def tlsfMemalign (align size : ℕ) : Option (Pool t × Option ℕ) :=
  if size = 0 then some (p,none)
  else if align&&&wordSub t align 1 ≠ 0 then some (p,none)
  else
    let size := alignUp t size
    let align := alignUp t align
    let m := tlsfMalloc p ((size+2*align+minBlockSize t)%t.word)
    match m.2 with
    | none => some (m.1,none)
    | some raw =>
      if alignOffset t raw align = 0 then some (m.1,some raw)
      else recut m.1 (blockFromPtr t raw) (alignOffset t raw align) size

end

def Heap (t : Target) : Type := { mem : Buffer t // mem.size = 16*1024 }

def systemPool (heap : Heap t) (pool : Option (Pool t)) : Option (Pool t) :=
  match pool with
  | some p => some p
  | none => tlsfCreate (some heap.1)

def osMalloc (heap : Heap t) (pool : Option (Pool t)) (size : ℕ) : Option (Pool t) × Option ℕ :=
  match systemPool heap pool with
  | none => (none,none)
  | some p => (some (tlsfMalloc p size).1,(tlsfMalloc p size).2)

def memset (p : Pool t) (dst : ℕ) (value : UInt8) (n : ℕ) : Pool t :=
  { p with bytes := fun a => if dst ≤ a ∧ a < dst+n then value else p.bytes a }

/-- `none` when `memset` runs past the block. -/
def osCalloc (heap : Heap t) (pool : Option (Pool t)) (nmemb size : ℕ) :
    Option (Option (Pool t) × Option ℕ) :=
  let total := nmemb*size%t.word
  match osMalloc heap pool total with
  | (some p,some ptr) =>
    if (p.headers (blockFromPtr t ptr)).size < total then none
    else some (some (memset p ptr 0 total),some ptr)
  | (pool,ptr) => some (pool,ptr)

end TinyDeviceOs.Alloc
