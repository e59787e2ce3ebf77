import TinyDeviceOs.Alloc

/-! The pool as a list of blocks; every step of the allocator is an edit of that list. -/
namespace TinyDeviceOs.Alloc

open LinkedList List

variable {t : Target}

section

variable (p : Pool t)

def Pool.nextPhys (b : ℕ) : Option ℕ := (p.headers b).nextPhys
def Pool.prevPhys (b : ℕ) : Option ℕ := (p.headers b).prevPhys
def Pool.nextFree (b : ℕ) : Option ℕ := (p.headers b).nextFree
def Pool.prevFree (b : ℕ) : Option ℕ := (p.headers b).prevFree

end

structure Block where
  (addr size : ℕ)
  (free used : Bool)
deriving DecidableEq

section

variable (p : Pool t)

def blockAt (b : ℕ) : Block :=
  ⟨b,(p.headers b).size,(p.headers b).free,(p.headers b).used⟩

def Block.span (t : Target) (k : Block) : ℕ := k.size+t.blockOverhead

def Tiles (t : Target) : ℕ → List Block → ℕ → Prop
  | start,[],stop => start = stop
  | start,k::ks,stop => k.addr = start ∧ Tiles t (start+k.span t) ks stop

def InBucket (ks : List Block) (i : Fin 32) (b : ℕ) : Prop :=
  b ∈ ks.map Block.addr ∧ (p.headers b).free = true ∧ tlsfGetIndex (p.headers b).size = i

def bucketOf (ks : List Block) (b : ℕ) : Option (Fin 32) :=
  if b ∈ ks.map Block.addr ∧ (p.headers b).free = true then some (tlsfGetIndex (p.headers b).size)
  else none

theorem bucketOf_eq_some {p : Pool t} {ks : List Block} {i : Fin 32} {b : ℕ} :
    bucketOf p ks b = some i ↔ InBucket p ks i b := by
  rw [bucketOf,InBucket]
  split_ifs with h
  · simp [h]
  · exact iff_of_false (by simp) fun hb => h ⟨hb.1,hb.2.1⟩

/-- It lies in the address space, and its sizes fit 32 bits. -/
structure AreaFits (p : Pool t) : Prop where
  size_lt : p.totalSize < 2^32+t.blockOverhead
  total_lt : p.totalSize < t.word
  memory_le : p.memory+p.totalSize ≤ t.word

/-- The blocks tile the buffer; each list holds the free ones of its bucket. -/
structure Represents (p : Pool t) (ks : List Block) : Prop where
  block : ∀ k ∈ ks, blockAt p k.addr = k
  signature : ∀ k ∈ ks, (p.headers k.addr).signature = tlsfSignature
  phys : Linked p.nextPhys p.prevPhys p.blockList (ks.map Block.addr)
  tiles : Tiles t p.memory ks (p.memory+p.totalSize)
  buckets : Family p.nextFree p.prevFree p.freeList (bucketOf p ks)
  fits : AreaFits p

structure SameArea (p p' : Pool t) : Prop where
  totalSize : p'.totalSize = p.totalSize
  blockList : p'.blockList = p.blockList
  memory : p'.memory = p.memory

structure SamePool (p p' : Pool t) : Prop extends SameArea p p' where
  usedSize : p'.usedSize = p.usedSize
  minFree : p'.minFree = p.minFree

theorem SameArea.fits {p p' : Pool t} (h : SameArea p p') (hf : AreaFits p) : AreaFits p' :=
  ⟨h.totalSize▸hf.size_lt,h.totalSize▸hf.total_lt,by rw [h.memory,h.totalSize]; exact hf.memory_le⟩

theorem SamePool.refl : SamePool p p := ⟨⟨rfl,rfl,rfl⟩,rfl,rfl⟩

end

theorem SameArea.trans {p q r : Pool t} (h : SameArea p q) (h' : SameArea q r) : SameArea p r :=
  ⟨h'.totalSize.trans h.totalSize,h'.blockList.trans h.blockList,h'.memory.trans h.memory⟩

theorem SamePool.trans {p q r : Pool t} (h : SamePool p q) (h' : SamePool q r) : SamePool p r :=
  ⟨h.toSameArea.trans h'.toSameArea,h'.usedSize.trans h.usedSize,h'.minFree.trans h.minFree⟩

section

variable (p : Pool t) (b y : ℕ) (o : Option ℕ) (f : Header → Header)

theorem modify_headers :
    (p.modify b f).headers y = if b = y then f (p.headers y) else p.headers y := by
  simp only [Pool.modify,Function.update_apply,eq_comm (a:=y)]
  split_ifs with h
  · rw [h]
  · rfl

theorem modifyAt_headers :
    (p.modifyAt o f).headers y = if o = some y then f (p.headers y) else p.headers y := by
  cases o with
  | none => simp [Pool.modifyAt]
  | some b => simp [Pool.modifyAt,modify_headers]

@[simp] theorem modify_freeList : (p.modify b f).freeList = p.freeList := rfl

@[simp] theorem modifyAt_freeList : (p.modifyAt o f).freeList = p.freeList := by
  cases o <;> rfl

@[simp] theorem setFreeList_headers : (p.setFreeList i o).headers = p.headers := rfl

theorem setFreeList_freeList : (p.setFreeList i o).freeList j = if i = j then o else p.freeList
    j := by
  simp only [Pool.setFreeList,Function.update_apply,eq_comm (a:=j)]

theorem samePool_modify : SamePool p (p.modify b f) := ⟨⟨rfl,rfl,rfl⟩,rfl,rfl⟩

theorem samePool_modifyAt : SamePool p (p.modifyAt o f) := by
  cases o with
  | none => exact SamePool.refl p
  | some b => exact samePool_modify p b f

theorem samePool_setFreeList : SamePool p (p.setFreeList i o) :=
  ⟨⟨rfl,rfl,rfl⟩,rfl,rfl⟩

end

section

variable {a c : ℕ} {ks js l r : List Block} {k j : Block}

theorem tiles_append : Tiles t a (ks++js) c ↔ ∃ m, Tiles t a ks m ∧ Tiles t m js c := by
  induction ks generalizing a with
  | nil => simp [Tiles]
  | cons k ks ih =>
    simp only [cons_append,Tiles,ih]
    constructor
    · rintro ⟨hk,m,hl,hr⟩
      exact ⟨m,⟨hk,hl⟩,hr⟩
    · rintro ⟨m,⟨hk,hl⟩,hr⟩
      exact ⟨hk,m,hl,hr⟩

theorem Tiles.sum_eq (h : Tiles t a ks c) : a+(ks.map (Block.span t)).sum = c := by
  induction ks generalizing a with
  | nil => simpa [Tiles] using h
  | cons k ks ih =>
    have hs := ih h.2
    simp only [map_cons,sum_cons]
    omega

theorem Tiles.mem_bounds (h : Tiles t a ks c) (hk : k ∈ ks) : a ≤ k.addr ∧ k.addr+k.span t ≤ c := by
  obtain ⟨l,r,rfl⟩ := append_of_mem hk
  obtain ⟨m,hl,rfl,hr⟩ := tiles_append.mp h
  have hls := hl.sum_eq
  have hrs := hr.sum_eq
  omega

section

variable (h : Tiles t a (l++k::r) c)
include h

theorem Tiles.around : (∀ j ∈ l, j.addr+j.span t ≤ k.addr) ∧ ∀ j ∈ r, k.addr+k.span t ≤ j.addr := by
  obtain ⟨m,hl,rfl,hr⟩ := tiles_append.mp h
  exact ⟨fun j hj => (hl.mem_bounds hj).2,fun j hj => (hr.mem_bounds hj).1⟩

theorem Tiles.replace (ha : j.addr = k.addr) (hs : j.size = k.size) : Tiles t a (l++j::r) c := by
  obtain ⟨m,hl,hk,hr⟩ := tiles_append.mp h
  exact tiles_append.mpr ⟨m,hl,ha.trans hk,by rwa [Block.span,hs]⟩

theorem Tiles.cut (h₁ : k₁.addr = k.addr) (hs₁ : k₁.size = x) (h₂ : k₂.addr =
    k.addr+(x+t.blockOverhead)) (hs : x+t.blockOverhead+k₂.size = k.size) : Tiles t a
    (l++k₁::k₂::r) c := by
  obtain ⟨m,hl,rfl,hr⟩ := tiles_append.mp h
  refine tiles_append.mpr ⟨_,hl,h₁,by rw [h₂,Block.span,hs₁],?_⟩
  have hend : k.addr+k₁.span t+k₂.span t = k.addr+k.span t := by
    simp only [Block.span]
    omega
  rwa [hend]

end

theorem Tiles.join (h : Tiles t a (l++k::j::r) c) (ha : k'.addr = k.addr) (hs : k'.size =
    k.size+t.blockOverhead+j.size) : Tiles t a (l++k'::r) c := by
  obtain ⟨m,hl,rfl,-,hr⟩ := tiles_append.mp h
  refine tiles_append.mpr ⟨_,hl,ha,?_⟩
  have hend : k.addr+k'.span t = k.addr+k.span t+j.span t := by
    simp only [Block.span]
    omega
  rwa [hend]

end

theorem mem_mid {l r : List Block} {k : Block} : k ∈ l++k::r :=
  mem_append_right l mem_cons_self

theorem mem_middle {l r : List Block} {k j : Block} : j ∈ l++k::r ↔ j = k ∨ j ∈ l++r := by
  rw [perm_middle.mem_iff,mem_cons]

namespace Represents

variable {p p' : Pool t} {l r ks : List Block} {k k' j : Block}

theorem addr_nodup (h : Represents p ks) : (ks.map Block.addr).Nodup := h.phys.nodup

theorem addr_ne (h : Represents p (l++k::r)) (hj : j ∈ l++r) : k.addr ≠ j.addr := by
  have hn := h.addr_nodup
  rw [map_append,map_cons,nodup_append,nodup_cons] at hn
  intro heq
  rcases mem_append.mp hj with hj | hj
  · exact hn.2.2 _ (mem_map_of_mem hj) _ mem_cons_self heq.symm
  · exact hn.2.1.1 (heq▸mem_map_of_mem hj)

theorem header_eq (h : Represents p ks) (hk : k ∈ ks) : (p.headers k.addr).size = k.size ∧
    (p.headers k.addr).free = k.free ∧ (p.headers k.addr).used = k.used := by
  have hb := h.block k hk
  exact ⟨congrArg Block.size hb,congrArg Block.free hb,congrArg Block.used hb⟩

theorem head_inBucket (h : Represents p ks) {i : Fin 32} {b : ℕ} (hb : p.freeList i = some b) :
    InBucket p ks i b :=
  bucketOf_eq_some.mp (h.buckets.head_place hb)

theorem buckets_congr (h : Represents p ks) (hn : p'.nextFree = p.nextFree) (hp : p'.prevFree =
    p.prevFree) (hl : p'.freeList = p.freeList) (hin : ∀ i b, InBucket p' ks' i b ↔ InBucket p
    ks i b) : Family p'.nextFree p'.prevFree p'.freeList (bucketOf p' ks') := by
  refine h.buckets.congr (congrFun hn) (congrFun hp) (congrFun hl) fun b => Option.ext fun i => ?_
  rw [bucketOf_eq_some,bucketOf_eq_some]
  exact hin i b

theorem update (h : Represents p (l++k::r)) (hs : SameArea p p') (ha : k'.addr = k.addr)
    (hsize : k'.size = k.size) (hk : blockAt p' k.addr = k')
    (hother : ∀ y, k.addr ≠ y → blockAt p' y = blockAt p y)
    (hframe : ∀ y, (p'.headers y).signature = (p.headers y).signature ∧
      p'.nextPhys y = p.nextPhys y ∧ p'.prevPhys y = p.prevPhys y)
    (hb : Family p'.nextFree p'.prevFree p'.freeList (bucketOf p' (l++k'::r))) :
    Represents p' (l++k'::r) := by
  refine ⟨?_,?_,?_,?_,hb,hs.fits h.fits⟩
  · intro j hj
    rcases mem_middle.mp hj with rfl | hj
    · rw [ha,hk]
    · rw [hother _ (h.addr_ne hj),h.block j (mem_middle.mpr (.inr hj))]
  · intro j hj
    rw [(hframe _).1]
    rcases mem_middle.mp hj with rfl | hj
    · rw [ha]
      exact h.signature k mem_mid
    · exact h.signature j (mem_middle.mpr (.inr hj))
  · rw [funext fun y => (hframe y).2.1,funext fun y => (hframe y).2.2,hs.blockList]
    simpa [ha] using h.phys
  · rw [hs.memory,hs.totalSize]
    exact h.tiles.replace ha hsize

end Represents

section

variable {p : Pool t} {l r : List Block} {k : Block}

theorem blockInsertFree_headers (p : Pool t) (b y : ℕ) :
    (blockInsertFree p b).headers y = { p.headers y with
      free := if b = y then true else (p.headers y).free
      nextFree := if b = y then p.freeList (tlsfGetIndex (p.headers b).size)
        else (p.headers y).nextFree
      prevFree := if p.freeList (tlsfGetIndex (p.headers b).size) = some y then some b
        else if b = y then none else (p.headers y).prevFree } := by
  simp only [blockInsertFree,setFreeList_headers,modifyAt_headers,modify_headers]
  split_ifs <;> rfl

theorem samePool_blockInsertFree (p : Pool t) (b : ℕ) : SamePool p (blockInsertFree p b) :=
  ((samePool_modify p b _).trans (samePool_modifyAt _ _ _)).trans (samePool_setFreeList _ _)

theorem Represents.insertFree (h : Represents p (l++k::r)) (hk : k.free = false) :
    Represents (blockInsertFree p k.addr) (l++{ k with free := true }::r) := by
  obtain ⟨hsize,hfree,hused⟩ := h.header_eq (k:=k) mem_mid
  have hhead := blockInsertFree_headers p k.addr
  refine h.update (samePool_blockInsertFree p k.addr).toSameArea rfl rfl ?_ ?_ ?_ ?_
  · simp [blockAt,hhead,hsize,hused]
  · intro y hy
    simp [blockAt,hhead,hy]
  · simp [Pool.nextPhys,Pool.prevPhys,hhead]
  refine h.buckets.push (x:=k.addr) (i:=tlsfGetIndex k.size) ?_ ?_ ?_ ?_ ?_
  · simp [bucketOf,hfree,hk]
  · intro y
    rw [Pool.nextFree,hhead,hsize]
    rfl
  · intro y
    rw [Pool.prevFree,hhead,hsize]
    rfl
  · intro i
    simp only [blockInsertFree,setFreeList_freeList,modifyAt_freeList,modify_freeList,hsize]
  · intro y
    simp only [bucketOf,hhead,map_append,map_cons]
    by_cases hy : k.addr = y
    · simp [←hy,hsize]
    · simp [hy]

theorem blockRemoveFree_headers {b : ℕ} (hp : (p.headers b).prevFree ≠ some b)
    (hn : (p.headers b).nextFree ≠ some b) (y : ℕ) :
    (blockRemoveFree p b).headers y = { p.headers y with
      free := if b = y then false else (p.headers y).free
      nextFree := if (p.headers b).prevFree = some y then (p.headers b).nextFree
        else (p.headers y).nextFree
      prevFree := if (p.headers b).nextFree = some y then (p.headers b).prevFree
        else (p.headers y).prevFree } := by
  cases hprev : (p.headers b).prevFree with
  | none =>
    simp only [blockRemoveFree,hprev,modify_headers,modifyAt_headers,setFreeList_headers]
    split_ifs <;> simp_all
  | some c =>
    have hc : c ≠ b := fun e => hp (hprev.trans (congrArg some e))
    simp only [blockRemoveFree,hprev,modify_headers,modifyAt_headers,hc,if_false]
    split_ifs <;> simp_all

theorem blockRemoveFree_freeList : (blockRemoveFree p b).freeList i = if tlsfGetIndex (p.headers
    b).size = i ∧ (p.headers b).prevFree = none then (p.headers b).nextFree else p.freeList i := by
  cases hprev : (p.headers b).prevFree with
  | none => simp [blockRemoveFree,hprev,setFreeList_freeList]
  | some c => simp [blockRemoveFree,hprev]

theorem samePool_blockRemoveFree (p : Pool t) (b : ℕ) : SamePool p (blockRemoveFree p b) := by
  rw [blockRemoveFree]
  refine SamePool.trans (SamePool.trans ?_ (samePool_modifyAt _ _ _)) (samePool_modify _ _ _)
  cases (p.headers b).prevFree with
  | none => exact samePool_setFreeList _ _
  | some c => exact samePool_modify _ _ _

theorem Represents.removeFree (h : Represents p (l++k::r)) (hk : k.free = true) :
    Represents (blockRemoveFree p k.addr) (l++{ k with free := false }::r) := by
  obtain ⟨hsize,hfree,hused⟩ := h.header_eq (k:=k) mem_mid
  have hmine : bucketOf p (l++k::r) k.addr = some (tlsfGetIndex k.size) :=
    bucketOf_eq_some.mpr ⟨mem_map_of_mem mem_mid,hfree.trans hk,by rw [hsize]⟩
  have hhead := blockRemoveFree_headers (p:=p) (b:=k.addr)
    (fun e => (h.buckets.neighbours hmine (.inr e)).1 rfl)
    (fun e => (h.buckets.neighbours hmine (.inl e)).1 rfl)
  refine h.update (samePool_blockRemoveFree p k.addr).toSameArea rfl rfl ?_ ?_ ?_ ?_
  · simp [blockAt,hhead,hsize,hused]
  · intro y hy
    simp [blockAt,hhead,hy]
  · simp [Pool.nextPhys,Pool.prevPhys,hhead]
  refine h.buckets.remove hmine ?_ ?_ ?_ ?_
  · intro y _
    rw [Pool.nextFree,hhead]
    rfl
  · intro y _
    rw [Pool.prevFree,hhead]
    rfl
  · intro i
    rw [blockRemoveFree_freeList,hsize]
    rfl
  · intro y
    simp only [bucketOf,hhead,map_append,map_cons]
    by_cases hy : k.addr = y
    · simp [hy]
    · simp [hy]

end

section

variable {p : Pool t} {l r : List Block} {k n : Block}

theorem blockOverhead_pos (t : Target) : 0 < t.blockOverhead := by
  cases t <;> decide

theorem word_le (t : Target) : 2^32 ≤ t.word := by
  cases t <;> decide

theorem Represents.size_lt (h : Represents p ks) (hk : k ∈ ks) : k.size+t.blockOverhead ≤
    p.totalSize ∧ k.size < 2^32 := by
  have hb := h.tiles.mem_bounds hk
  have ht := h.fits.size_lt
  rw [Block.span] at hb
  omega

theorem Represents.pair_le (h : Represents p (l++k::n::r)) : k.span t+n.span t ≤ p.totalSize := by
  obtain ⟨m,-,rfl,hrest⟩ := tiles_append.mp h.tiles
  have hb := hrest.mem_bounds (mem_cons_self (a:=n))
  have hm := (h.tiles.mem_bounds (k:=k) mem_mid).1
  omega

theorem carve_headers (p : Pool t) (block size new remaining y : ℕ) :
    (carve p block size new remaining).headers y = { p.headers y with
      signature := if new = y then tlsfSignature else (p.headers y).signature
      size := if block = y then size%2^32 else if new = y then remaining%2^32
        else (p.headers y).size
      free := if new = y then false else (p.headers y).free
      used := if new = y then false else (p.headers y).used
      nextPhys := if block = y then some new else if new = y then p.nextPhys block
        else p.nextPhys y
      prevPhys := if p.nextPhys block = some y then some new
        else if new = y then some block else p.prevPhys y } := by
  simp only [carve,modify_headers,modifyAt_headers,Pool.nextPhys,Pool.prevPhys]
  split_ifs <;> rfl

theorem samePool_carve (p : Pool t) (block size new remaining : ℕ) :
    SamePool p (carve p block size new remaining) := by
  rw [carve]
  exact ((samePool_modify _ _ _).trans (samePool_modifyAt _ _ _)).trans (samePool_modify _ _ _)

theorem Represents.carve_fresh (h : Represents p (l++k::r)) (hx : x+t.blockOverhead+rem =
    k.size) : ∀ y ∈ (l++k::r).map Block.addr, k.addr+(x+t.blockOverhead) ≠ y := by
  have hpos := blockOverhead_pos t
  obtain ⟨hleft,hright⟩ := h.tiles.around
  intro y hy
  obtain ⟨j,hj,rfl⟩ := mem_map.mp hy
  rcases mem_middle.mp hj with rfl | hj
  · omega
  · rcases mem_append.mp hj with hj | hj
    · have := hleft j hj
      omega
    · have := hright j hj
      rw [Block.span] at this
      omega

section

variable {new : ℕ} (hnew : ∀ y ∈ (l++k::r).map Block.addr, new ≠ y)

include hnew

theorem Represents.carve_phys (h : Represents p (l++k::r)) (x rem : ℕ) :
    Linked (carve p k.addr x new rem).nextPhys (carve p k.addr x new rem).prevPhys p.blockList
      (l.map Block.addr++k.addr::new::r.map Block.addr) := by
  have hhead := carve_headers p k.addr x new rem
  have hphys := h.phys
  rw [map_append,map_cons] at hphys hnew
  refine hphys.insertAfter ?_ ?_ ?_ ?_
  · have hkn := hnew k.addr (mem_append_right _ mem_cons_self)
    simp [Pool.nextPhys,hhead,hkn.symm]
  · have hne : p.nextPhys k.addr ≠ some new := fun e =>
      hnew new (mem_append_right _ (mem_cons_of_mem _ (hphys.next_mem e))) rfl
    rw [Pool.prevPhys,hhead]
    simp [hne]
  · intro y hy
    rw [Pool.nextPhys,hhead]
    simp [hnew y hy]
  · intro y hy
    rw [Pool.prevPhys,hhead]
    simp [hnew y hy]

theorem Represents.carve_buckets (h : Represents p (l++k::r)) (hk : k.free = false) (x rem : ℕ) :
    Family (carve p k.addr x new rem).nextFree (carve p k.addr x new rem).prevFree
      (carve p k.addr x new rem).freeList (bucketOf (carve p k.addr x new rem)
        (l++{ k with size := x }::⟨new,rem,false,false⟩::r)) := by
  have hhead := carve_headers p k.addr x new rem
  refine h.buckets_congr ?_ ?_ ?_ ?_
  · funext y
    simp [Pool.nextFree,hhead]
  · funext y
    simp [Pool.prevFree,hhead]
  · simp [Alloc.carve]
  · intro i b
    have hfree := (h.header_eq (k:=k) mem_mid).2.1
    have hkn := hnew k.addr (mem_map_of_mem mem_mid)
    have hout : new ∉ (l++k::r).map Block.addr := fun hm => hnew new hm rfl
    by_cases hb : new = b
    · subst hb
      exact iff_of_false (fun hin => by simp [InBucket,hhead] at hin) fun hin => hout hin.1
    · simp only [InBucket,hhead,map_append,map_cons,mem_append,mem_cons]
      by_cases hkb : k.addr = b
      · simp [←hkb,hkn,hfree,hk]
      · simp [hb,Ne.symm hb,hkb]

end

theorem Represents.carve (h : Represents p (l++k::r)) (hk : k.free = false)
    (hx : x+t.blockOverhead+rem = k.size) :
    Represents (carve p k.addr x (k.addr+(x+t.blockOverhead)) rem)
      (l++{ k with size := x }::⟨k.addr+(x+t.blockOverhead),rem,false,false⟩::r) := by
  have hsize := (h.size_lt (k:=k) mem_mid).2
  have hxlt : x%2^32 = x := Nat.mod_eq_of_lt (by omega)
  have hrlt : rem%2^32 = rem := Nat.mod_eq_of_lt (by omega)
  have hnew := h.carve_fresh hx
  generalize haddr : k.addr+(x+t.blockOverhead) = new at hnew ⊢
  have hkn : k.addr ≠ new := (hnew k.addr (mem_map_of_mem mem_mid)).symm
  have hmem {j : Block} (hj : j ∈ l++r) : j ∈ l++k::r := mem_middle.mpr (.inr hj)
  have hfresh : ∀ j ∈ l++r, new ≠ j.addr := fun j hj => hnew _ (mem_map_of_mem (hmem hj))
  have hhead := carve_headers p k.addr x new rem
  have hsame := (samePool_carve p k.addr x new rem).toSameArea
  have hold {j : Block} (hj : j ∈ l++{ k with size := x }::⟨new,rem,false,false⟩::r) :
      j = { k with size := x } ∨ j = ⟨new,rem,false,false⟩ ∨ j ∈ l++r := by
    rwa [mem_middle,mem_middle] at hj
  refine ⟨?_,?_,?_,?_,h.carve_buckets hnew hk x rem,hsame.fits h.fits⟩
  · intro j hj
    rcases hold hj with rfl | rfl | hj
    · obtain ⟨-,hfree,hused⟩ := h.header_eq (k:=k) mem_mid
      simp only [blockAt,hhead,hxlt,hkn.symm,hfree,hused,if_true,if_false]
    · simp only [blockAt,hhead,hkn,hrlt,if_true,if_false]
    · simp only [blockAt,hhead,h.addr_ne hj,hfresh j hj,if_false]
      exact h.block j (hmem hj)
  · intro j hj
    rcases hold hj with rfl | rfl | hj
    · simp [hhead,hkn.symm,h.signature k mem_mid]
    · simp [hhead]
    · simp [hhead,hfresh j hj,h.signature j (hmem hj)]
  · rw [hsame.blockList,map_append,map_cons,map_cons]
    exact h.carve_phys hnew x rem
  · rw [hsame.memory,hsame.totalSize]
    exact h.tiles.cut rfl rfl haddr.symm hx

theorem absorb_headers (p : Pool t) (block next y : ℕ) :
    (absorb p block next).headers y = { p.headers y with
      size := if block = y then ((p.headers block).size+t.blockOverhead+(p.headers next).size)%2^32
        else (p.headers y).size
      nextPhys := if block = y then p.nextPhys next else p.nextPhys y
      prevPhys := if p.nextPhys next = some y then some block else p.prevPhys y } := by
  simp only [absorb,modify_headers,modifyAt_headers,Pool.nextPhys,Pool.prevPhys]
  by_cases hy : block = y
  · subst hy
    split_ifs <;> simp_all
  · split_ifs <;> simp_all

theorem samePool_absorb (p : Pool t) (block next : ℕ) : SamePool p (absorb p block next) := by
  rw [absorb]
  exact (samePool_modify _ _ _).trans (samePool_modifyAt _ _ _)

section

variable (h : Represents p (l++k::n::r))
include h

theorem Represents.absorb_phys : Linked (absorb p k.addr n.addr).nextPhys (absorb p k.addr
    n.addr).prevPhys p.blockList (l.map Block.addr++k.addr::r.map Block.addr) := by
  have hhead := absorb_headers p k.addr n.addr
  have hphys := h.phys
  rw [map_append,map_cons,map_cons,append_cons] at hphys
  have hprev : p.prevPhys n.addr = some k.addr := by
    rw [(linked_split.mp hphys).2.1,lastOr_append_singleton]
  have hrem : Linked (absorb p k.addr n.addr).nextPhys (absorb p k.addr n.addr).prevPhys
      (if p.prevPhys n.addr = none then p.nextPhys n.addr else p.blockList)
      (l.map Block.addr++[k.addr]++r.map Block.addr) := by
    refine hphys.remove ?_ ?_
    · intro y _
      rw [Pool.nextPhys,hhead,hprev]
      simp
    · intro y _
      rw [Pool.prevPhys,hhead,hprev]
  rw [hprev,if_neg (Option.some_ne_none _)] at hrem
  simpa using hrem

theorem Represents.absorb_buckets (hk : k.free = false)
    (hn : n.free = false) :
    Family (absorb p k.addr n.addr).nextFree (absorb p k.addr n.addr).prevFree
      (absorb p k.addr n.addr).freeList (bucketOf (absorb p k.addr n.addr)
        (l++{ k with size := k.size+t.blockOverhead+n.size }::r)) := by
  have hnm : n ∈ l++k::n::r := mem_append_right l (mem_cons_of_mem k mem_cons_self)
  have hkf := (h.header_eq (k:=k) mem_mid).2.1
  have hnf := (h.header_eq hnm).2.1
  have hhead := absorb_headers p k.addr n.addr
  refine h.buckets_congr ?_ ?_ ?_ ?_
  · funext y
    simp [Pool.nextFree,hhead]
  · funext y
    simp [Pool.prevFree,hhead]
  · simp [Alloc.absorb]
  · intro i b
    simp only [InBucket,hhead,map_append,map_cons,mem_append,mem_cons]
    by_cases hkb : k.addr = b
    · simp [←hkb,hkf,hk]
    · by_cases hnb : n.addr = b
      · simp [←hnb,hnf,hn]
      · simp [hkb,Ne.symm hnb]

theorem Represents.absorb (hk : k.free = false)
    (hn : n.free = false) :
    Represents (absorb p k.addr n.addr)
      (l++{ k with size := k.size+t.blockOverhead+n.size }::r) := by
  have hnm : n ∈ l++k::n::r := mem_append_right l (mem_cons_of_mem k mem_cons_self)
  obtain ⟨hks,hkf,hku⟩ := h.header_eq (k:=k) mem_mid
  obtain ⟨hns,hnf,-⟩ := h.header_eq hnm
  have hsum : k.size+t.blockOverhead+n.size < 2^32 := by
    have hpair := h.pair_le
    have ht := h.fits.size_lt
    simp only [Block.span] at hpair
    omega
  have hhead := absorb_headers p k.addr n.addr
  have hsame := (samePool_absorb p k.addr n.addr).toSameArea
  have hne : ∀ j ∈ l++r, k.addr ≠ j.addr := fun j hj => h.addr_ne (mem_middle.mpr (.inr hj))
  have hmem {j : Block} (hj : j ∈ l++r) : j ∈ l++k::n::r :=
    mem_middle.mpr (.inr (mem_middle.mpr (.inr hj)))
  refine ⟨?_,?_,?_,?_,h.absorb_buckets hk hn,hsame.fits h.fits⟩
  · intro j hj
    rcases mem_middle.mp hj with rfl | hj
    · simp only [blockAt,hhead,hks,hns,Nat.mod_eq_of_lt hsum,hkf,hku,if_true]
    · simp only [blockAt,hhead,hne j hj,if_false]
      exact h.block j (hmem hj)
  · intro j hj
    rcases mem_middle.mp hj with rfl | hj
    · simp [hhead,h.signature k mem_mid]
    · simp [hhead,h.signature j (hmem hj)]
  · rw [hsame.blockList,map_append,map_cons]
    exact h.absorb_phys
  · rw [hsame.memory,hsame.totalSize]
    exact h.tiles.join rfl rfl

end

end

end TinyDeviceOs.Alloc
