import TinyDeviceOs.AllocBlocks

/-! What the pieces of `tlsf_malloc` and `tlsf_free` do to the list of blocks. -/
namespace TinyDeviceOs.Alloc

open LinkedList List

variable {t : Target} {p : Pool t} {l r ks : List Block} {k : Block} {a b : ℕ}

theorem wordSub_eq (ha : a < t.word) (hb : b ≤ a) : wordSub t a b = a-b := by
  rw [wordSub,Nat.mod_eq_of_lt (by omega : b < t.word),
    show a+t.word-b = a-b+t.word by omega,Nat.add_mod_right,Nat.mod_eq_of_lt (by omega)]

/-- A block is cut for a request of `a` bytes. -/
def Cut (t : Target) (k : Block) (a : ℕ) : Prop := a+t.blockOverhead+minBlockSize t ≤ k.size
  deriving Decidable

def kept (t : Target) (k : Block) (a : ℕ) : Block := if Cut t k a then { k with size := a } else k

def rest (t : Target) (k : Block) (a : ℕ) : List Block :=
  if Cut t k a then [⟨k.addr+(a+t.blockOverhead),k.size-(a+t.blockOverhead),true,false⟩] else []

theorem samePool_blockSplit (p : Pool t) (block size : ℕ) :
    SamePool p (blockSplit p block size).1 := by
  rw [blockSplit]
  split_ifs
  · exact SamePool.refl p
  · exact (samePool_carve _ _ _ _ _).trans (samePool_blockInsertFree _ _)

theorem Represents.split (h : Represents p (l++k::r)) (hk : k.free = false)
    (ha : Cut t k a) :
    Represents (blockSplit p k.addr a).1 (l++{ k with size := a }::
      ⟨k.addr+(a+t.blockOverhead),k.size-(a+t.blockOverhead),true,false⟩::r) := by
  rw [Cut] at ha
  have hw := h.fits.total_lt
  have hlt := (h.size_lt (k:=k) mem_mid).1
  have hb := (h.tiles.mem_bounds (k:=k) mem_mid).2
  have hm := h.fits.memory_le
  rw [Block.span] at hb
  have hrem : wordSub t (wordSub t (p.headers k.addr).size a) t.blockOverhead =
      k.size-(a+t.blockOverhead) := by
    rw [(h.header_eq (k:=k) mem_mid).1,wordSub_eq (a:=k.size) (by omega) (by omega),
      wordSub_eq (by omega) (by omega),Nat.sub_sub]
  have hnew : (k.addr+a+t.blockOverhead)%t.word = k.addr+(a+t.blockOverhead) := by
    rw [Nat.mod_eq_of_lt (by unfold minBlockSize tlsfBlockAlign at ha; omega),add_assoc]
  simp only [blockSplit,hrem,hnew]
  rw [if_neg (by omega)]
  have hc := h.carve hk (show a+t.blockOverhead+(k.size-(a+t.blockOverhead)) = k.size by omega)
  rw [append_cons] at hc ⊢
  exact hc.insertFree rfl

theorem samePool_trim (p : Pool t) (block size total : ℕ) :
    SamePool p (trim p block size total) := by
  rw [trim]
  split_ifs
  · exact samePool_blockSplit p block size
  · exact SamePool.refl p

/-- The split test, whose sums may wrap, is right about `s` bytes. -/
def SplitFits (t : Target) (s a : ℕ) : Prop :=
  ((a+t.blockOverhead)%t.word+minBlockSize t)%t.word ≤ s → a+t.blockOverhead+minBlockSize t ≤ s
  deriving Decidable

theorem splitFits_of_lt (s : ℕ) (ha : a+t.blockOverhead+minBlockSize t < t.word) :
    SplitFits t s a := by
  rw [SplitFits,Nat.mod_eq_of_lt (by omega : a+t.blockOverhead < t.word),Nat.mod_eq_of_lt ha]
  exact id

section

variable (h : Represents p (l++k::r))
include h

theorem Represents.trimFits (hk : k.free = false) (ha : SplitFits t k.size a) : Represents (trim
    p k.addr a ((a+t.blockOverhead)%t.word)) (l++kept t k a::(rest t k a++r)) := by
  rw [Alloc.trim,(h.header_eq (k:=k) mem_mid).1,kept,rest]
  by_cases hs : Cut t k a
  · have hlt := (h.size_lt (k:=k) mem_mid).2
    have hw := word_le t
    have hsum : a+t.blockOverhead+minBlockSize t ≤ k.size := hs
    rw [Nat.mod_eq_of_lt (by omega : a+t.blockOverhead < t.word),
      Nat.mod_eq_of_lt (by omega : a+t.blockOverhead+minBlockSize t < t.word),if_pos hsum,if_pos hs,
      if_pos hs]
    exact h.split hk hs
  · rw [if_neg fun htest => hs (ha htest),if_neg hs,if_neg hs]
    exact h

theorem Represents.trim (hk : k.free = false) (ha : a+t.blockOverhead+minBlockSize t < t.word) :
    Represents (trim p k.addr a (a+t.blockOverhead)) (l++kept t k a::(rest t k a++r)) := by
  have htrim := h.trimFits hk (splitFits_of_lt k.size ha)
  rwa [Nat.mod_eq_of_lt (by omega : a+t.blockOverhead < t.word)] at htrim

theorem Represents.setUsed
    (hp : p'.headers = (p.modify k.addr fun h => { h with used := u }).headers)
    (hl : p'.freeList = p.freeList) (hs : SameArea p p') :
    Represents p' (l++{ k with used := u }::r) := by
  obtain ⟨hsize,hfree,-⟩ := h.header_eq (k:=k) mem_mid
  have hhead (y : ℕ) : p'.headers y =
      { p.headers y with used := if k.addr = y then u else (p.headers y).used } := by
    rw [hp,modify_headers]
    split_ifs <;> rfl
  refine h.update hs rfl rfl ?_ ?_ ?_ ?_
  · simp [blockAt,hhead,hsize,hfree]
  · intro y hy
    simp [blockAt,hhead,hy]
  · simp [Pool.nextPhys,Pool.prevPhys,hhead]
  · refine h.buckets_congr ?_ ?_ hl ?_
    · funext y
      simp [Pool.nextFree,hhead]
    · funext y
      simp [Pool.prevFree,hhead]
    · intro i b
      simp [InBucket,hhead]

theorem Represents.markUsed :
    Represents (markUsed p k.addr) (l++{ k with used := true }::r) :=
  h.setUsed rfl rfl ⟨rfl,rfl,rfl⟩

theorem Represents.unmarkUsed :
    Represents (unmarkUsed p k.addr) (l++{ k with used := false }::r) :=
  h.setUsed rfl rfl ⟨rfl,rfl,rfl⟩

theorem Represents.prevPhys_eq : (p.headers k.addr).prevPhys = l.getLast?.map Block.addr := by
  have hphys := h.phys
  rw [map_append,map_cons] at hphys
  have hp : p.prevPhys k.addr = lastOr none (l.map Block.addr) := (linked_split.mp hphys).2.1
  rw [Pool.prevPhys] at hp
  rw [hp]
  rcases eq_nil_or_concat l with rfl | ⟨l',j,rfl⟩
  · rfl
  · simp

theorem Represents.nextPhys_eq : (p.headers k.addr).nextPhys = r.head?.map Block.addr := by
  have hphys := h.phys
  rw [map_append,map_cons] at hphys
  have hn : p.nextPhys k.addr = (r.map Block.addr).head? := hphys.next_eq
  rw [Pool.nextPhys] at hn
  rw [hn,head?_map]

end

theorem Represents.freeNeighbour_eq (h : Represents p ks) (hj : j ∈ ks) : freeNeighbour p (some
    j.addr) = if j.free = true then some j.addr else none := by
  rw [freeNeighbour,Option.filter_some,(h.header_eq hj).2.1]

theorem Represents.grow (h : Represents p (l++k::j::r)) (hk : k.free = false) (hj : j.free = true) :
    Represents (Alloc.absorb (blockRemoveFree p j.addr) k.addr j.addr)
      (l++{ k with size := k.size+t.blockOverhead+j.size }::r) := by
  rw [append_cons] at h
  have hrem := h.removeFree hj
  rw [append_assoc,singleton_append] at hrem
  exact hrem.absorb hk rfl

section

variable (h : Represents p (l++k::r)) (hk : k.free = false)
include h hk

theorem Represents.mergePrev :
    (∃ l' j, l = l'++[j] ∧ j.free = true ∧ (mergePrev p k.addr).2 = j.addr ∧
      Represents (mergePrev p k.addr).1
        (l'++{ j with free := false, size := j.size+t.blockOverhead+k.size }::r)) ∨
    (∀ j ∈ l.getLast?, j.free = false) ∧ mergePrev p k.addr = (p,k.addr) := by
  rw [Alloc.mergePrev,h.prevPhys_eq]
  rcases eq_nil_or_concat l with rfl | ⟨l',j,rfl⟩
  · exact .inr ⟨by simp,rfl⟩
  rw [concat_eq_append] at h ⊢
  have hj : j ∈ l'++[j]++k::r := mem_append_left _ (mem_append_right _ mem_cons_self)
  rw [getLast?_concat,Option.map_some,h.freeNeighbour_eq hj]
  cases hf : j.free with
  | false => exact .inr ⟨by simpa using hf,rfl⟩
  | true =>
    rw [append_assoc,singleton_append] at h
    refine .inl ⟨l',j,rfl,hf,rfl,?_⟩
    exact (h.removeFree hf).absorb rfl hk

theorem Represents.mergeNext :
    (∃ n r', r = n::r' ∧ n.free = true ∧ (mergeNext p k.addr).2 = k.addr ∧
      Represents (mergeNext p k.addr).1
        (l++{ k with size := k.size+t.blockOverhead+n.size }::r')) ∨
    (∀ n ∈ r.head?, n.free = false) ∧ mergeNext p k.addr = (p,k.addr) := by
  rw [Alloc.mergeNext,h.nextPhys_eq]
  cases r with
  | nil => exact .inr ⟨by simp,rfl⟩
  | cons n r' =>
    have hn : n ∈ l++k::n::r' := by simp
    rw [head?_cons,Option.map_some,h.freeNeighbour_eq hn]
    cases hf : n.free with
    | false => exact .inr ⟨by simpa using hf,rfl⟩
    | true => exact .inl ⟨n,r',rfl,hf,rfl,h.grow hk hf⟩

end

theorem samePool_blockMerge (p : Pool t) (b : ℕ) : SamePool p (blockMerge p b).1 := by
  have hprev : SamePool p (Alloc.mergePrev p b).1 := by
    rw [Alloc.mergePrev]
    split
    · exact (samePool_blockRemoveFree _ _).trans (samePool_absorb _ _ _)
    · exact SamePool.refl p
  refine hprev.trans ?_
  rw [blockMerge,Alloc.mergeNext]
  split
  · exact (samePool_blockRemoveFree _ _).trans (samePool_absorb _ _ _)
  · exact SamePool.refl _

/-- A side whose neighbour was free has lost it. -/
structure Merged (l r : List Block) (k : Block) (l' r' : List Block) (m : Block) : Prop where
  left : l' = l ∧ (∀ j ∈ l.getLast?, j.free = false) ∨ ∃ j, l = l'++[j] ∧ j.free = true
  right : r' = r ∧ (∀ n ∈ r.head?, n.free = false) ∨ ∃ n, r = n::r' ∧ n.free = true
  free : m.free = false
  used : m.used = k.used ∨ ∃ j ∈ l, j.free = true ∧ m.used = j.used

theorem Represents.merge (h : Represents p (l++k::r)) (hk : k.free = false) :
    ∃ l' m r', Represents (blockMerge p k.addr).1 (l'++m::r') ∧
      (blockMerge p k.addr).2 = m.addr ∧ Merged l r k l' r' m := by
  rw [blockMerge]
  rcases h.mergePrev hk with ⟨l',j,rfl,hj,haddr,hrep⟩ | ⟨hlast,heq⟩
  · have hmem : ∃ i ∈ l'++[j], i.free = true ∧ j.used = i.used := ⟨j,by simp,hj,rfl⟩
    rw [haddr]
    rcases hrep.mergeNext rfl with ⟨n,r',rfl,hn,haddr',hrep'⟩ | ⟨hhead,heq'⟩
    · exact ⟨l',_,r',hrep',haddr',.inr ⟨j,rfl,hj⟩,.inr ⟨n,rfl,hn⟩,rfl,.inr hmem⟩
    · rw [heq']
      exact ⟨l',_,r,hrep,rfl,.inr ⟨j,rfl,hj⟩,.inl ⟨rfl,hhead⟩,rfl,.inr hmem⟩
  · rw [heq]
    rcases h.mergeNext hk with ⟨n,r',rfl,hn,haddr',hrep'⟩ | ⟨hhead,heq'⟩
    · exact ⟨l,_,r',hrep',haddr',.inl ⟨rfl,hlast⟩,.inr ⟨n,rfl,hn⟩,hk,.inl rfl⟩
    · rw [heq']
      exact ⟨l,k,r,h,rfl,.inl ⟨rfl,hlast⟩,.inl ⟨rfl,hhead⟩,hk,.inl rfl⟩

def freeBytes (t : Target) (ks : List Block) : ℕ := ((ks.filter Block.free).map (Block.span t)).sum

theorem length_le_sum_span (ks : List Block) : ks.length ≤ (ks.map (Block.span t)).sum := by
  have hpos := blockOverhead_pos t
  induction ks with
  | nil => rfl
  | cons k ks ih =>
    simp only [length_cons,map_cons,sum_cons,Block.span]
    omega

theorem Represents.sum_span (h : Represents p ks) : (ks.map (Block.span t)).sum = p.totalSize := by
  have hs := h.tiles.sum_eq
  omega

theorem Represents.bucket_eq (h : Represents p ks) (hl : Linked p.nextFree p.prevFree
    (p.freeList i) xs) (hx : ∀ b, b ∈ xs ↔ bucketOf p ks b = some i) : bucket p i = xs := by
  have hsub : xs ⊆ ks.map Block.addr := fun b hb => (bucketOf_eq_some.mp ((hx b).mp hb)).1
  refine hl.walk_eq ?_
  have hle := (subperm_of_subset hl.nodup hsub).length_le
  rw [length_map] at hle
  exact le_trans hle (h.sum_span▸length_le_sum_span ks)

/-- The loop visits the free blocks of its bucket, each once. -/
theorem Represents.bucket_spec (h : Represents p ks) : (bucket p i).Nodup ∧ ∀ b, b ∈ bucket p i
    ↔ InBucket p ks i b := by
  obtain ⟨xs,hl,hx⟩ := h.buckets i
  rw [h.bucket_eq hl hx]
  exact ⟨hl.nodup,fun b => (hx b).trans bucketOf_eq_some⟩

theorem foldl_add_mod (w : ℕ) (f : ℕ → ℕ) (xs : List ℕ) (acc : ℕ) (h : acc+(xs.map f).sum < w) :
    xs.foldl (fun free b => (free+f b)%w) acc = acc+(xs.map f).sum := by
  induction xs generalizing acc with
  | nil => rfl
  | cons x xs ih =>
    rw [map_cons,sum_cons] at h
    rw [foldl_cons,Nat.mod_eq_of_lt (by omega),ih _ (by omega),map_cons,sum_cons]
    omega

theorem Represents.buckets_perm (h : Represents p ks) :
    ((finRange 32).flatMap (bucket p)).Perm ((ks.filter Block.free).map Block.addr) := by
  refine (perm_ext_iff_of_nodup ?_ ?_).mpr ?_
  · rw [nodup_flatMap]
    refine ⟨fun i _ => h.bucket_spec.1,?_⟩
    refine (nodup_finRange 32).imp ?_
    intro i j hij b hi hj
    exact hij (((h.bucket_spec.2 b).mp hi).2.2.symm.trans ((h.bucket_spec.2 b).mp hj).2.2)
  · exact h.addr_nodup.sublist ((filter_sublist).map Block.addr)
  · intro b
    simp only [mem_flatMap,mem_finRange,true_and,h.bucket_spec.2,InBucket,mem_map,
      mem_filter]
    constructor
    · rintro ⟨i,⟨k,hk,rfl⟩,hf,-⟩
      exact ⟨k,⟨hk,by rw [←(h.header_eq hk).2.1,hf]⟩,rfl⟩
    · rintro ⟨k,⟨hk,hf⟩,rfl⟩
      exact ⟨_,⟨k,hk,rfl⟩,(h.header_eq hk).2.1.trans hf,rfl⟩

theorem sum_filter_le (f : Block → Bool) (ks : List Block) :
    ((ks.filter f).map (Block.span t)).sum ≤ (ks.map (Block.span t)).sum :=
  ((filter_sublist).map _).sum_le_sum (fun _ _ => Nat.zero_le _)

theorem Represents.freeSize_eq (h : Represents p ks) : tlsfPoolFreeSize p = freeBytes t ks := by
  have hperm := h.buckets_perm.map fun b => (p.headers b).size+t.blockOverhead
  have hspan : ((ks.filter Block.free).map Block.addr).map
      (fun b => (p.headers b).size+t.blockOverhead) = (ks.filter Block.free).map (Block.span t) := by
    rw [map_map]
    refine map_congr_left fun k hk => ?_
    rw [Function.comp_apply,(h.header_eq (mem_of_mem_filter hk)).1,Block.span]
  have hsum := hperm.sum_eq
  rw [hspan] at hsum
  have hle := sum_filter_le (t:=t) Block.free ks
  have hlt := h.fits.total_lt
  rw [h.sum_span] at hle
  rw [tlsfPoolFreeSize,foldl_add_mod _ _ _ _ (by rw [hsum]; omega),hsum,zero_add,freeBytes]

theorem Represents.findBlock_free (h : Represents p ks) (hb : findBlock p total = some b) : ∃ k
    ∈ ks, k.addr = b ∧ k.free = true := by
  obtain ⟨i,-,hi⟩ := exists_of_findSome?_eq_some hb
  have hin : InBucket p ks i b := by
    split_ifs at hi with h1 h2
    · exact (h.bucket_spec.2 b).mp (mem_of_find?_eq_some hi)
    · exact h.head_inBucket hi
  obtain ⟨⟨k,hk,rfl⟩,hf,-⟩ := And.intro (mem_map.mp hin.1) hin.2
  exact ⟨k,hk,rfl,(h.header_eq hk).2.1▸hf⟩

end TinyDeviceOs.Alloc
