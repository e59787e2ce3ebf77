import TinyDeviceOs.AllocOps

/-! What every call of the allocator keeps, resizing and buffers beyond the 32-bit size field
included: the chain, the free lists and the flags. -/
namespace TinyDeviceOs.Alloc

open LinkedList List

variable {t : Target} {p q : Pool t} {l r ks : List Block} {k : Block} {a n : ℕ}

/-- With another `total_size` and other payload, which no header step reads. -/
def Pool.over (p : Pool t) (n : ℕ) (bytes : ℕ → UInt8) : Pool t :=
  { p with totalSize := n, bytes := bytes }

/-- The part of the pool that its first block covers. -/
def Pool.within (p : Pool t) (n : ℕ) : Pool t := p.over n p.bytes

section

variable (p) (n b x y z : ℕ) (bytes : ℕ → UInt8) (o : Option ℕ) (f : Header → Header)

@[simp] theorem over_headers : (p.over n bytes).headers = p.headers := rfl

@[simp] theorem over_freeList : (p.over n bytes).freeList = p.freeList := rfl

@[simp] theorem over_usedSize : (p.over n bytes).usedSize = p.usedSize := rfl

theorem over_modify : (p.over n bytes).modify b f = (p.modify b f).over n bytes := rfl

theorem over_modifyAt : (p.over n bytes).modifyAt o f = (p.modifyAt o f).over n bytes := by
  cases o <;> rfl

theorem over_setFreeList :
    (p.over n bytes).setFreeList i o = (p.setFreeList i o).over n bytes := rfl

theorem over_blockInsertFree :
    blockInsertFree (p.over n bytes) b = (blockInsertFree p b).over n bytes := by
  simp only [blockInsertFree,over_headers,over_freeList,over_modify,over_modifyAt,over_setFreeList]

theorem over_blockRemoveFree :
    blockRemoveFree (p.over n bytes) b = (blockRemoveFree p b).over n bytes := by
  simp only [blockRemoveFree,over_headers]
  cases (p.headers b).prevFree with
  | none => simp only [over_setFreeList,over_headers,over_modifyAt,over_modify]
  | some c => simp only [over_headers,over_modifyAt,over_modify]

theorem over_carve : carve (p.over n bytes) b x y z = (carve p b x y z).over n bytes := by
  simp only [carve,over_headers,over_modify,over_modifyAt]

theorem over_blockSplit :
    (blockSplit (p.over n bytes) b x).1 = (blockSplit p b x).1.over n bytes := by
  simp only [blockSplit,over_headers,over_carve,over_blockInsertFree]
  split_ifs <;> rfl

theorem over_trim : trim (p.over n bytes) b x y = (trim p b x y).over n bytes := by
  simp only [trim,over_headers,over_blockSplit]
  split_ifs <;> rfl

theorem over_absorb : absorb (p.over n bytes) b x = (absorb p b x).over n bytes := by
  simp only [absorb,over_headers,over_modify,over_modifyAt]

theorem over_markUsed : markUsed (p.over n bytes) b = (markUsed p b).over n bytes := rfl

theorem over_unmarkUsed : unmarkUsed (p.over n bytes) b = (unmarkUsed p b).over n bytes := rfl

theorem over_freeNeighbour : freeNeighbour (p.over n bytes) o = freeNeighbour p o := rfl

theorem over_mergePrev :
    mergePrev (p.over n bytes) b = ((mergePrev p b).1.over n bytes,(mergePrev p b).2) := by
  simp only [mergePrev,over_headers,over_freeNeighbour]
  cases freeNeighbour p (p.headers b).prevPhys with
  | none => rfl
  | some c => simp only [over_blockRemoveFree,over_absorb]

theorem over_mergeNext :
    mergeNext (p.over n bytes) b = ((mergeNext p b).1.over n bytes,(mergeNext p b).2) := by
  simp only [mergeNext,over_headers,over_freeNeighbour]
  cases freeNeighbour p (p.headers b).nextPhys with
  | none => rfl
  | some c => simp only [over_blockRemoveFree,over_absorb]

theorem over_release : release (p.over n bytes) b = (release p b).over n bytes := by
  simp only [release,blockMerge,over_unmarkUsed,over_mergePrev,over_mergeNext,over_blockInsertFree]

end

theorem bytes_eq_of_over {f : Pool t → Pool t}
    (hf : ∀ p n bytes, f (p.over n bytes) = (f p).over n bytes) (p : Pool t) :
    (f p).bytes = p.bytes := by
  have heq : f p = (f p).over p.totalSize p.bytes := hf p p.totalSize p.bytes
  rw [heq]
  rfl

theorem Represents.congr (h : Represents p ks) (hh : q.headers = p.headers)
    (hl : q.freeList = p.freeList) (hs : SameArea p q) : Represents q ks := by
  have hn : q.nextPhys = p.nextPhys := by funext b; rw [Pool.nextPhys,hh]; rfl
  have hp : q.prevPhys = p.prevPhys := by funext b; rw [Pool.prevPhys,hh]; rfl
  refine ⟨?_,?_,?_,?_,?_,hs.fits h.fits⟩
  · intro k hk
    rw [blockAt,hh]
    exact h.block k hk
  · rw [hh]
    exact h.signature
  · rw [hn,hp,hs.blockList]
    exact h.phys
  · rw [hs.memory,hs.totalSize]
    exact h.tiles
  · refine h.buckets_congr ?_ ?_ hl ?_
    · funext b
      rw [Pool.nextFree,hh]
      rfl
    · funext b
      rw [Pool.prevFree,hh]
      rfl
    · intro i b
      rw [InBucket,hh]
      rfl

def chain (p : Pool t) : List ℕ := walk p.nextPhys p.totalSize p.blockList

def blocks (p : Pool t) : List Block := (chain p).map (blockAt p)

def live (p : Pool t) : List ℕ := ((blocks p).filter Block.used).map Block.addr

/-- The chain, the free lists and the flags are right. -/
structure Formed (p : Pool t) (n : ℕ) (ks : List Block) : Prop where
  rep : Represents (p.within n) ks
  le : n ≤ p.totalSize
  flags : ∀ k ∈ ks, k.free = !k.used

namespace Formed

section

variable (h : Formed p n ks)
include h

theorem block (hk : k ∈ ks) : blockAt p k.addr = k := h.rep.block k hk

theorem header_eq (hk : k ∈ ks) : (p.headers k.addr).size = k.size ∧
    (p.headers k.addr).free = k.free ∧ (p.headers k.addr).used = k.used := h.rep.header_eq hk

theorem size_lt (hk : k ∈ ks) : k.size < 2^32 := (h.rep.size_lt hk).2

theorem length_le : ks.length ≤ p.totalSize := by
  have hlen := length_le_sum_span (t:=t) ks
  rw [h.rep.sum_span] at hlen
  exact le_trans hlen h.le

theorem chain_eq : chain p = ks.map Block.addr := by
  refine h.rep.phys.walk_eq ?_
  rw [length_map]
  exact h.length_le

theorem blocks_eq : blocks p = ks := by
  rw [blocks,h.chain_eq,map_map]
  conv_rhs => rw [←map_id ks]
  exact map_congr_left fun k hk => h.block hk

theorem bucket_eq (i : Fin 32) : bucket p i = bucket (p.within n) i := by
  obtain ⟨xs,hl,hx⟩ := h.rep.buckets i
  have hsub : xs ⊆ ks.map Block.addr := fun b hb => (bucketOf_eq_some.mp ((hx b).mp hb)).1
  have hle := (subperm_of_subset hl.nodup hsub).length_le
  rw [length_map] at hle
  rw [h.rep.bucket_eq hl hx]
  exact hl.walk_eq (le_trans hle h.length_le)

theorem mem_bucket (i : Fin 32) (b : ℕ) :
    b ∈ bucket p i ↔ InBucket p ks i b := by
  rw [h.bucket_eq]
  exact h.rep.bucket_spec.2 b

theorem findBlock_eq : findBlock p total = findBlock (p.within n) total := by
  simp only [findBlock,h.bucket_eq]
  rfl

theorem findBlock_free {total b : ℕ} (hb : findBlock p total = some b) :
    ∃ k ∈ ks, k.addr = b ∧ k.free = true :=
  h.rep.findBlock_free (h.findBlock_eq.symm.trans hb)

theorem mem_live {b : ℕ} : b ∈ live p ↔ ∃ k ∈ ks, k.addr = b ∧ k.used = true := by
  rw [live,h.blocks_eq]
  simp only [mem_map,mem_filter]
  constructor
  · rintro ⟨k,⟨hk,hu⟩,hb⟩
    exact ⟨k,hk,hb,hu⟩
  · rintro ⟨k,hk,hb,hu⟩
    exact ⟨k,⟨hk,hu⟩,hb⟩

theorem congr (hh : q.headers = p.headers) (hl : q.freeList = p.freeList)
    (hs : SameArea p q) : Formed q n ks :=
  ⟨h.rep.congr hh hl ⟨rfl,hs.blockList,hs.memory⟩,by rw [hs.totalSize]; exact h.le,h.flags⟩

theorem not_free (hk : k ∈ ks) (hu : k.used = true) : k.free = false := by
  rw [h.flags k hk,hu]
  rfl

theorem not_used (hk : k ∈ ks) (hf : k.free = true) : k.used = false := by
  simpa [hf] using h.flags k hk

end

end Formed

def covered (p : Pool t) : ℕ := (p.totalSize-t.blockOverhead)%2^32+t.blockOverhead

theorem covered_le (h : t.blockOverhead ≤ p.totalSize) : covered p ≤ p.totalSize := by
  have hle := Nat.mod_le (p.totalSize-t.blockOverhead) (2^32)
  rw [covered]
  omega

theorem represents_initPool (mem : Buffer t) (hs : t.poolOverhead+t.blockOverhead ≤ mem.size) :
    Represents ((initPool mem).within (covered (initPool mem)))
      [⟨(initPool mem).memory,covered (initPool mem)-t.blockOverhead,false,false⟩] := by
  have hhead : (initPool mem).headers (initPool mem).memory =
      { mem.headers (mem.addr+t.poolOverhead) with
        signature := tlsfSignature
        size := covered (initPool mem)-t.blockOverhead
        free := false
        used := false
        prevPhys := none
        nextPhys := none } := by
    simp [initPool,Pool.modify,covered]
  have hle : covered (initPool mem) ≤ mem.size-t.poolOverhead := covered_le (by change _ ≤ _-_; omega)
  have hf := mem.fits
  have hpos : 0 < t.poolOverhead := by cases t <;> decide
  refine ⟨?_,?_,?_,?_,?_,?_,?_,?_⟩
  · simp only [mem_singleton,forall_eq,blockAt,Pool.within,over_headers,hhead]
  · simp [Pool.within,hhead]
  · refine ⟨rfl,?_,?_⟩
    · change ((initPool mem).headers _).prevPhys = none
      rw [hhead]
    · change ((initPool mem).headers _).nextPhys = none
      rw [hhead]
  · refine ⟨rfl,?_⟩
    change _+(covered _-_+_) = _+_
    rw [covered,Nat.add_sub_cancel]
    rfl
  · intro i
    refine ⟨[],rfl,fun b => ?_⟩
    simp only [not_mem_nil,bucketOf_eq_some,InBucket,map_cons,map_nil,
      mem_singleton,false_iff]
    rintro ⟨rfl,hf,-⟩
    simp [Pool.within,hhead] at hf
  · exact Nat.add_lt_add_right (Nat.mod_lt _ (by norm_num)) _
  · change covered _ < t.word
    omega
  · change mem.addr+t.poolOverhead+covered _ ≤ t.word
    omega

/-- A new pool is one free block, in a buffer of any size. -/
theorem formed_create (hc : tlsfCreate (some mem) = some p) : Formed p (covered p)
    [⟨p.memory,covered p-t.blockOverhead,true,false⟩] := by
  simp only [tlsfCreate] at hc
  split_ifs at hc with hsmall
  obtain rfl := Option.some.inj hc
  have hs := samePool_blockInsertFree (initPool mem) (initPool mem).memory
  have hcov : covered (blockInsertFree (initPool mem) (initPool mem).memory) =
      covered (initPool mem) := by
    rw [covered,hs.totalSize,covered]
  unfold minBlockSize at hsmall
  have hins := Represents.insertFree (l:=[]) (represents_initPool mem (by omega)) rfl
  rw [Pool.within,over_blockInsertFree] at hins
  rw [hcov,hs.memory]
  refine ⟨hins.congr rfl rfl ⟨rfl,rfl,rfl⟩,?_,by simp⟩
  rw [hs.totalSize]
  exact covered_le (by change _ ≤ _-_; omega)

theorem kept_addr (k : Block) (a : ℕ) : (kept t k a).addr = k.addr := by
  rw [kept]
  split_ifs <;> rfl

theorem kept_flags (k : Block) (a : ℕ) :
    (kept t k a).free = k.free ∧ (kept t k a).used = k.used := by
  rw [kept]
  split_ifs <;> exact ⟨rfl,rfl⟩

theorem rest_free (hj : j ∈ rest t k a) : j.free = true ∧ j.used = false := by
  rw [rest] at hj
  split_ifs at hj
  · rw [mem_singleton] at hj
    rw [hj]
    exact ⟨rfl,rfl⟩
  · simp at hj

def taken (t : Target) (k : Block) (a : ℕ) : Block :=
  { kept t { k with free := false } a with used := true }

def grant (p : Pool t) (block a : ℕ) : Pool t :=
  markUsed (trim (blockRemoveFree p block) block a ((a+t.blockOverhead)%t.word)) block

theorem Represents.grant (h : Represents p (l++k::r)) (hk : k.free = true)
    (ha : SplitFits t k.size a) : Represents (grant p k.addr a)
      (l++taken t k a::(rest t { k with free := false } a++r)) := by
  have haddr : (kept t { k with free := false } a).addr = k.addr := kept_addr _ a
  rw [Alloc.grant]
  nth_rewrite 3 [←haddr]
  exact ((h.removeFree hk).trimFits rfl ha).markUsed

theorem sameArea_grant (p : Pool t) (b a : ℕ) : SameArea p (grant p b a) := by
  have hsame := (samePool_blockRemoveFree p b).trans
    (samePool_trim _ b a ((a+t.blockOverhead)%t.word))
  exact ⟨hsame.totalSize,hsame.blockList,hsame.memory⟩

theorem over_grant (p : Pool t) (n b a : ℕ) (bytes : ℕ → UInt8) :
    grant (p.over n bytes) b a = (grant p b a).over n bytes := by
  simp only [grant,over_blockRemoveFree,over_trim,over_markUsed]

theorem mem_cut (hj : j ∈ l++k'::(rest t k a++r)) : j = k' ∨ j ∈ rest t k a ∨ j ∈ l++r := by
  simp only [mem_append,mem_cons] at hj ⊢
  tauto

theorem rest_flags (hj : j ∈ rest t k a) : j.free = !j.used := by
  rw [(rest_free hj).1,(rest_free hj).2]
  rfl

theorem Formed.grant (h : Formed p n (l++k::r)) (hk : k.free = true) (ha : SplitFits t k.size a) :
    Formed (grant p k.addr a) n (l++taken t k a::(rest t { k with free := false } a++r)) := by
  have hrep := h.rep.grant hk ha
  rw [Pool.within,over_grant] at hrep
  refine ⟨hrep.congr rfl rfl ⟨rfl,rfl,rfl⟩,(sameArea_grant p k.addr a).totalSize▸h.le,?_⟩
  intro j hj
  rcases mem_cut hj with rfl | hj | hj
  · exact (kept_flags _ a).1
  · exact rest_flags hj
  · exact h.flags j (mem_middle.mpr (.inr hj))

theorem Formed.trim (h : Formed p n (l++k::r)) (hk : k.used = true) (ha : SplitFits t k.size a) :
    Formed (trim p k.addr a ((a+t.blockOverhead)%t.word)) n
      (l++kept t k a::(rest t k a++r)) := by
  have hrep := h.rep.trimFits (h.not_free mem_mid hk) ha
  rw [Pool.within,over_trim] at hrep
  refine ⟨hrep.congr rfl rfl ⟨rfl,rfl,rfl⟩,(samePool_trim p _ _ _).totalSize▸h.le,?_⟩
  intro j hj
  rcases mem_cut hj with rfl | hj | hj
  · rw [(kept_flags k a).1,(kept_flags k a).2]
    exact h.flags k mem_mid
  · exact rest_flags hj
  · exact h.flags j (mem_middle.mpr (.inr hj))

theorem Formed.grow (h : Formed p n (l++k::j::r)) (hk : k.used = true)
    (hj : j.free = true) : Formed (absorb (blockRemoveFree p j.addr) k.addr j.addr) n
      (l++{ k with size := k.size+t.blockOverhead+j.size }::r) := by
  have habs := h.rep.grow (h.not_free mem_mid hk) hj
  rw [Pool.within,over_blockRemoveFree,over_absorb] at habs
  have hsame := (samePool_blockRemoveFree p j.addr).trans (samePool_absorb _ k.addr j.addr)
  refine ⟨habs.congr rfl rfl ⟨rfl,rfl,rfl⟩,hsame.totalSize▸h.le,?_⟩
  intro i hi
  rcases mem_middle.mp hi with rfl | hi
  · exact h.flags k mem_mid
  · exact h.flags i (mem_middle.mpr (.inr (mem_middle.mpr (.inr hi))))

section

variable {l' r' : List Block} {m : Block} (hm : Merged l r k l' r' m)
include hm

theorem Merged.filter_used (hu : ∀ j ∈ l++r, j.free = true → j.used = false) : (l'++r').filter
    Block.used = (l++r).filter Block.used := by
  have hl : l'.filter Block.used = l.filter Block.used := by
    rcases hm.left with ⟨rfl,-⟩ | ⟨j,rfl,hj⟩
    · rfl
    · simp [hu j (by simp) hj]
  have hr : r'.filter Block.used = r.filter Block.used := by
    rcases hm.right with ⟨rfl,-⟩ | ⟨n,rfl,hn⟩
    · rfl
    · simp [hu n (by simp) hn]
  rw [filter_append,filter_append,hl,hr]

theorem Merged.subset : ∀ j ∈ l'++r', j ∈ l++r := by
  intro j hj
  rcases mem_append.mp hj with hj | hj
  · refine mem_append_left _ ?_
    rcases hm.left with ⟨rfl,-⟩ | ⟨i,rfl,-⟩
    · exact hj
    · exact mem_append_left _ hj
  · refine mem_append_right _ ?_
    rcases hm.right with ⟨rfl,-⟩ | ⟨n,rfl,-⟩
    · exact hj
    · exact mem_cons_of_mem _ hj

end

theorem Represents.release (h : Represents p (l++k::r)) (hf : ∀ j ∈ l++k::r, j.free = !j.used)
    (hk : k.used = true) :
    ∃ l' m r', Represents (release p k.addr) (l'++{ m with free := true }::r') ∧
      m.used = false ∧ Merged l r { k with used := false } l' r' m := by
  have hkf : k.free = false := by rw [hf k mem_mid,hk]; rfl
  obtain ⟨l',m,r',hrep,haddr,hm⟩ := h.unmarkUsed.merge hkf
  refine ⟨l',m,r',?_,?_,hm⟩
  · rw [Alloc.release,show (blockMerge (Alloc.unmarkUsed p k.addr) k.addr).2 = m.addr from haddr]
    exact hrep.insertFree hm.free
  · rcases hm.used with hmk | ⟨j,hj,hjf,hmj⟩
    · exact hmk
    · rw [hmj]
      simpa [hjf] using hf j (mem_append_left _ hj)

theorem Merged.released (hm : Merged l r k l' r' m)
    (hf : ∀ j ∈ l++r, j.free = !j.used) (hmu : m.used = false) :
    (∀ j ∈ l'++{ m with free := true }::r', j.free = !j.used) ∧
      (l'++{ m with free := true }::r').filter Block.used = (l++r).filter Block.used := by
  have hunused (j : Block) (hj : j ∈ l++r) (hjf : j.free = true) : j.used = false := by
    simpa [hjf] using hf j hj
  constructor
  · intro j hj
    rcases mem_middle.mp hj with rfl | hj
    · simp [hmu]
    · exact hf j (hm.subset j hj)
  · rw [←hm.filter_used hunused,filter_append,filter_cons,filter_append]
    simp [hmu]

theorem samePool_release (p : Pool t) (b : ℕ) : SamePool (unmarkUsed p b) (release p b) :=
  (samePool_blockMerge _ b).trans (samePool_blockInsertFree _ _)

theorem Formed.release_merged (h : Formed p n (l++k::r)) (hk : k.used = true) :
    ∃ l' m r', Formed (release p k.addr) n (l'++{ m with free := true }::r') ∧
      m.used = false ∧ Merged l r { k with used := false } l' r' m := by
  obtain ⟨l',m,r',hrep,hmu,hm⟩ := h.rep.release h.flags hk
  obtain ⟨hflags,-⟩ := hm.released (fun j hj => h.flags j (mem_middle.mpr (.inr hj))) hmu
  rw [Pool.within,over_release] at hrep
  exact ⟨l',m,r',⟨hrep.congr rfl rfl ⟨rfl,rfl,rfl⟩,(samePool_release p k.addr).totalSize▸h.le,
    hflags⟩,hmu,hm⟩

theorem Formed.release (h : Formed p n (l++k::r)) (hk : k.used = true) :
    ∃ ks', Formed (release p k.addr) n ks' ∧
      ks'.filter Block.used = (l++r).filter Block.used := by
  obtain ⟨l',m,r',hf,hmu,hm⟩ := h.release_merged hk
  exact ⟨_,hf,(hm.released (fun j hj => h.flags j (mem_middle.mpr (.inr hj))) hmu).2⟩

theorem blockFromPtr_ptrFromBlock : blockFromPtr t (ptrFromBlock t b) = b :=
  Nat.add_sub_cancel b t.blockOverhead

section

variable (h : Formed p n ks) (hk : k ∈ ks)
include h hk

theorem Formed.signature :
    (p.headers k.addr).signature = tlsfSignature := h.rep.signature k hk

theorem Formed.tlsfFree_eq (hu : k.used = true) (hptr : blockFromPtr t ptr = k.addr) :
    tlsfFree p (some ptr) = Alloc.release p k.addr := by
  simp [tlsfFree,hptr,h.signature hk,(h.header_eq hk).2.2,hu]

end

end TinyDeviceOs.Alloc
