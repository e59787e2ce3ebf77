import TinyDeviceOs.AllocFormed

/-! Runs of the allocator: every block is free or used, no two neighbours are both free and the
used bytes are counted. -/
namespace TinyDeviceOs.Alloc

open LinkedList List

variable {t : Target} {p : Pool t} {l r ks : List Block} {k : Block}

def usedBytes (t : Target) (ks : List Block) : ℕ := ((ks.filter Block.used).map (Block.span t)).sum

def Apart (j k : Block) : Prop := ¬(j.free = true ∧ k.free = true)

/-- The invariant between calls. -/
structure Sound (p : Pool t) (ks : List Block) : Prop extends Represents p ks where
  flags : ∀ k ∈ ks, k.free = !k.used
  apart : ks.IsChain Apart
  counted : p.usedSize = usedBytes t ks

theorem usedBytes_append : usedBytes t (js++ks) = usedBytes t js+usedBytes t ks := by
  simp [usedBytes]

theorem usedBytes_cons : usedBytes t (k::ks) = (if k.used = true then k.span t else 0)+usedBytes
    t ks := by
  simp only [usedBytes,filter_cons]
  split_ifs <;> simp

theorem usedBytes_add_freeBytes (h : ∀ k ∈ ks, k.free = !k.used) : usedBytes t ks+freeBytes t ks
    = (ks.map (Block.span t)).sum := by
  induction ks with
  | nil => rfl
  | cons k ks ih =>
    obtain ⟨hk,hks⟩ := forall_mem_cons.mp h
    have hs := ih hks
    simp only [usedBytes,freeBytes,filter_cons,map_cons,sum_cons] at hs ⊢
    cases hu : k.used <;> simp [hk,hu] <;> omega

theorem isChain_middle :
    (l++k::r).IsChain Apart ↔ l.IsChain Apart ∧ r.IsChain Apart ∧
      (∀ j ∈ l.getLast?, Apart j k) ∧ ∀ n ∈ r.head?, Apart k n := by
  rw [isChain_append,isChain_cons]
  simp only [head?_cons,Option.mem_some_iff,forall_eq']
  tauto

theorem apart_left (h : j.free = false) : Apart j k := by simp [Apart,h]

theorem apart_right (h : k.free = false) : Apart j k := by simp [Apart,h]

theorem Sound.formed (h : Sound p ks) : Formed p p.totalSize ks := ⟨h.toRepresents,le_rfl,h.flags⟩

theorem Sound.balance (h : Sound p ks) : p.usedSize+tlsfPoolFreeSize p = p.totalSize := by
  rw [h.counted,h.freeSize_eq,usedBytes_add_freeBytes h.flags,h.sum_span]

theorem Sound.usedBytes_lt (h : Sound p ks) : usedBytes t ks ≤ p.totalSize := by
  have hle := sum_filter_le (t:=t) Block.used ks
  rwa [h.sum_span] at hle

def wholeBlock (p : Pool t) : Block := ⟨p.memory,p.totalSize-t.blockOverhead,true,false⟩

theorem sound_create (hc : tlsfCreate (some mem) = some p) (hm : mem.size-t.poolOverhead <
    2^32+t.blockOverhead) : Sound p [wholeBlock p] ∧ p.minFree = p.totalSize := by
  have hf := formed_create hc
  simp only [tlsfCreate] at hc
  split_ifs at hc with hsmall
  obtain rfl := Option.some.inj hc
  have hs := samePool_blockInsertFree (initPool mem) (initPool mem).memory
  have hcov : covered (blockInsertFree (initPool mem) (initPool mem).memory) =
      (blockInsertFree (initPool mem) (initPool mem).memory).totalSize := by
    rw [covered,hs.totalSize]
    change (mem.size-_-_)%_+_ = mem.size-_
    unfold minBlockSize at hsmall
    rw [Nat.mod_eq_of_lt (by omega)]
    omega
  rw [hcov] at hf
  exact ⟨⟨hf.rep,hf.flags,isChain_singleton _,hs.usedSize⟩,hs.minFree.trans hs.totalSize.symm⟩

section

variable {a : ℕ}

theorem usedBytes_rest : usedBytes t (rest t k a) = 0 := by
  have hnil : (rest t k a).filter Block.used = [] :=
    filter_eq_nil_iff.mpr fun n hn => by simp [(rest_free hn).2]
  simp [usedBytes,hnil]

theorem Represents.grant_usedSize (h : Represents p (l++k::r)) (hk : k.free = true)
    (ha : SplitFits t k.size a) :
    (Alloc.grant p k.addr a).usedSize = (p.usedSize+(taken t k a).span t)%t.word := by
  have htrim := (h.removeFree hk).trimFits rfl ha
  have hsame := (samePool_blockRemoveFree p k.addr).trans
    (samePool_trim _ k.addr a ((a+t.blockOverhead)%t.word))
  have hsize := (htrim.header_eq (k:=kept t { k with free := false } a) mem_mid).1
  rw [kept_addr] at hsize
  rw [Alloc.grant,Alloc.markUsed,hsize,hsame.usedSize]
  rfl

theorem Sound.usedBytes_grant (h : Sound p (l++k::r)) (hk : k.free = true) (a : ℕ) :
    usedBytes t (l++taken t k a::(rest t { k with free := false } a++r)) =
      p.usedSize+(taken t k a).span t := by
  have hku : k.used = false := by simpa [hk] using h.flags k mem_mid
  rw [h.counted]
  simp only [usedBytes_append,usedBytes_cons,usedBytes_rest,hku,
    show (taken t k a).used = true from rfl,Bool.false_eq_true,if_true,if_false]
  omega

theorem Sound.grant (h : Sound p (l++k::r)) (hk : k.free = true)
    (ha : a+t.blockOverhead+minBlockSize t < t.word) :
    Sound (grant p k.addr a) (l++taken t k a::(rest t { k with free := false } a++r)) ∧
      SameArea p (grant p k.addr a) ∧ (grant p k.addr a).minFree = p.minFree := by
  have hrep := h.toRepresents.grant hk (splitFits_of_lt k.size ha)
  have hused := h.toRepresents.grant_usedSize hk (splitFits_of_lt k.size ha)
  have hsame := (samePool_blockRemoveFree p k.addr).trans
    (samePool_trim _ k.addr a ((a+t.blockOverhead)%t.word))
  have htaken : (taken t k a).free = false := (kept_flags _ a).1
  obtain ⟨hal,har,-,hkr⟩ := isChain_middle.mp h.apart
  refine ⟨⟨hrep,(h.formed.grant hk (splitFits_of_lt k.size ha)).flags,?_,?_⟩,
    sameArea_grant p k.addr a,hsame.minFree⟩
  · refine isChain_middle.mpr ⟨hal,?_,fun _ _ => apart_right htaken,fun _ _ => apart_left htaken⟩
    rw [rest]
    split_ifs
    · refine isChain_cons.mpr ⟨fun n hn => apart_right ?_,har⟩
      simpa [Apart,hk] using hkr n hn
    · exact har
  · have hbytes := h.usedBytes_grant hk a
    have hle := sum_filter_le (t:=t) Block.used
      (l++taken t k a::(rest t { k with free := false } a++r))
    rw [hrep.sum_span] at hle
    have hlt := hrep.fits.total_lt
    rw [usedBytes] at hbytes
    rw [hused,usedBytes,hbytes,Nat.mod_eq_of_lt (by omega)]

/-- Alignment and the added headers do not wrap around. -/
def NoWrap (t : Target) (size : ℕ) : Prop := alignUp t size+t.blockOverhead+minBlockSize t < t.word
  deriving Decidable

def needed (t : Target) (size : ℕ) : ℕ := (alignUp t size+t.blockOverhead)%t.word

theorem tlsfMalloc_cases (p : Pool t) (size : ℕ) :
    (size = 0 ∨ findBlock p (needed t size) = none) ∧ tlsfMalloc p size = (p,none) ∨
    size ≠ 0 ∧ ∃ b, findBlock p (needed t size) = some b ∧ tlsfMalloc p size =
      (updateMinFree (grant p b (alignUp t size)),some (ptrFromBlock t b)) := by
  by_cases hz : size = 0
  · exact .inl ⟨.inl hz,by rw [tlsfMalloc,if_pos hz]⟩
  rw [tlsfMalloc,if_neg hz]
  cases hb : findBlock p (needed t size) with
  | none =>
    rw [needed] at hb
    exact .inl ⟨.inr rfl,by simp only [hb]⟩
  | some b =>
    rw [needed] at hb
    simp only [hb]
    exact .inr ⟨hz,b,rfl,rfl⟩

/-- It does nothing or hands out a free block. -/
theorem Sound.malloc_cases (h : Sound p ks) (hw : NoWrap t size) : tlsfMalloc p size = (p,none)
    ∨ ∃ l k r, ks = l++k::r ∧ k.free = true ∧ findBlock p (alignUp t size+t.blockOverhead) =
    some k.addr ∧ tlsfMalloc p size = (updateMinFree (Alloc.grant p k.addr (alignUp t
    size)),some (ptrFromBlock t k.addr)) := by
  rcases tlsfMalloc_cases p size with ⟨-,heq⟩ | ⟨-,b,hf,heq⟩
  · exact .inl heq
  · rw [needed,Nat.mod_eq_of_lt (by unfold NoWrap at hw; omega)] at hf
    obtain ⟨k,hk,rfl,hfree⟩ := h.findBlock_free hf
    obtain ⟨l,r,rfl⟩ := append_of_mem hk
    exact .inr ⟨l,k,r,rfl,hfree,hf,heq⟩

theorem Sound.updateMinFree (h : Sound p ks) : Sound (updateMinFree p) ks :=
  ⟨h.toRepresents.congr rfl rfl ⟨rfl,rfl,rfl⟩,h.flags,h.apart,h.counted⟩

end

theorem Merged.apart (hm : Merged l r k l' r' m) (hl : l.IsChain Apart) (hr : r.IsChain Apart) : l'.IsChain Apart ∧
    r'.IsChain Apart ∧ (∀ j ∈ l'.getLast?, j.free = false) ∧ ∀ n ∈ r'.head?, n.free = false := by
  have hleft : l'.IsChain Apart ∧ ∀ j ∈ l'.getLast?, j.free = false := by
    rcases hm.left with ⟨rfl,hlast⟩ | ⟨j,rfl,hj⟩
    · exact ⟨hl,hlast⟩
    · obtain ⟨hl',-,hij⟩ := isChain_append.mp hl
      refine ⟨hl',fun i hi => ?_⟩
      simpa [Apart,hj] using hij i hi j rfl
  have hright : r'.IsChain Apart ∧ ∀ n ∈ r'.head?, n.free = false := by
    rcases hm.right with ⟨rfl,hhead⟩ | ⟨n,rfl,hn⟩
    · exact ⟨hr,hhead⟩
    · obtain ⟨hnr,hr'⟩ := isChain_cons.mp hr
      refine ⟨hr',fun i hi => ?_⟩
      simpa [Apart,hn] using hnr i hi
  exact ⟨hleft.1,hright.1,hleft.2,hright.2⟩

theorem Sound.release (h : Sound p (l++k::r)) (hk : k.used = true) :
    ∃ ks', Sound (release p k.addr) ks' ∧ ks'.filter Block.used = (l++r).filter Block.used ∧
      SameArea p (release p k.addr) ∧ (release p k.addr).minFree = p.minFree := by
  obtain ⟨l',m,r',hrep,hmu,hm⟩ := h.toRepresents.release h.flags hk
  have hflags (j : Block) (hj : j ∈ l++r) : j.free = !j.used :=
    h.flags j (mem_middle.mpr (.inr hj))
  obtain ⟨hflags',hfilter⟩ := hm.released hflags hmu
  have hsame := samePool_release p k.addr
  obtain ⟨hl,hr,-,-⟩ := isChain_middle.mp h.apart
  obtain ⟨hal,har,hlast,hhead⟩ := hm.apart hl hr
  refine ⟨_,⟨hrep,hflags',?_,?_⟩,hfilter,⟨hsame.totalSize,hsame.blockList,hsame.memory⟩,
    hsame.minFree⟩
  · exact isChain_middle.mpr ⟨hal,har,fun j hj => apart_left (hlast j hj),
      fun n hn => apart_right (hhead n hn)⟩
  · have hcount := h.counted
    have hle := h.usedBytes_lt
    have hlt := h.fits.total_lt
    have hbytes : usedBytes t (l++k::r) = k.span t+usedBytes t (l++r) := by
      simp only [usedBytes_append,usedBytes_cons,hk,if_true]
      omega
    have hsub : (unmarkUsed p k.addr).usedSize = wordSub t p.usedSize (k.span t) := by
      rw [Alloc.unmarkUsed,(h.header_eq (k:=k) mem_mid).1]
      rfl
    rw [hsame.usedSize,hsub,wordSub_eq (by omega) (by omega),usedBytes,hfilter]
    rw [hcount,hbytes,Nat.add_sub_cancel_left,usedBytes]

/-- What the pool looks like between calls, read off its headers. -/
structure Consistent (p : Pool t) : Prop where
  phys : Linked p.nextPhys p.prevPhys p.blockList (chain p)
  tiles : Tiles t p.memory (blocks p) (p.memory+p.totalSize)
  apart : (blocks p).IsChain Apart
  lists : ∀ i, Linked p.nextFree p.prevFree (p.freeList i) (bucket p i)
  once : ∀ i, (bucket p i).Nodup
  members : ∀ i b, b ∈ bucket p i ↔
    b ∈ chain p ∧ (p.headers b).free = true ∧ tlsfGetIndex (p.headers b).size = i
  flags : ∀ k ∈ blocks p, k.free = !k.used
  balance : p.usedSize+tlsfPoolFreeSize p = p.totalSize

theorem Sound.consistent (h : Sound p ks) : Consistent p := by
  have hb := h.formed.blocks_eq
  refine ⟨h.formed.chain_eq▸h.phys,hb▸h.tiles,hb▸h.apart,?_,fun i => h.bucket_spec.1,?_,hb▸h.flags,
    h.balance⟩
  · intro i
    obtain ⟨xs,hl,hx⟩ := h.buckets i
    rwa [h.bucket_eq hl hx]
  · intro i b
    rw [h.bucket_spec.2,InBucket,h.formed.chain_eq]

inductive Request
  | malloc (size : ℕ)
  | free (ptr : Option ℕ)

def serve (p : Pool t) : Request → Pool t
  | .malloc size => (tlsfMalloc p size).1
  | .free ptr => tlsfFree p ptr

/-- A pointer that `tlsf_free` accepts belongs to a block of the chain. -/
def Owned (p : Pool t) (ptr : Option ℕ) : Prop :=
  ∀ q ∈ ptr, (p.headers (blockFromPtr t q)).signature = tlsfSignature →
    (p.headers (blockFromPtr t q)).used = true → blockFromPtr t q ∈ chain p
  deriving Decidable

def Legal (p : Pool t) : Request → Prop
  | .malloc size => size < 2^31
  | .free ptr => Owned p ptr

def LegalRun (p : Pool t) : List Request → Prop
  | [] => True
  | q::qs => Legal p q ∧ LegalRun (serve p q) qs

instance (p : Pool t) : (q : Request) → Decidable (Legal p q)
  | .malloc size => inferInstanceAs (Decidable (size < 2^31))
  | .free ptr => inferInstanceAs (Decidable (Owned p ptr))

instance decidableLegalRun (p : Pool t) : (qs : List Request) → Decidable (LegalRun p qs)
  | [] => inferInstanceAs (Decidable True)
  | q::qs =>
    have := decidableLegalRun (serve p q) qs
    inferInstanceAs (Decidable (Legal p q ∧ LegalRun (serve p q) qs))

theorem noWrap_of_lt (h : size < 2^31) : NoWrap t size := by
  have hw := word_le t
  have hov : t.blockOverhead ≤ 48 := by cases t <;> decide
  have hal : alignUp t size ≤ size+3 :=
    le_trans (Nat.sub_le _ _) (Nat.mod_le _ _)
  rw [NoWrap,minBlockSize,tlsfBlockAlign]
  omega

theorem Sound.malloc (h : Sound p ks) (hw : NoWrap t size) : ∃ ks', Sound (tlsfMalloc p size).1
    ks' ∧ SameArea p (tlsfMalloc p size).1 := by
  rcases h.malloc_cases hw with heq | ⟨l,k,r,rfl,hk,-,heq⟩
  · rw [heq]
    exact ⟨ks,h,⟨rfl,rfl,rfl⟩⟩
  · obtain ⟨hs,ha,-⟩ := h.grant hk hw
    rw [heq]
    exact ⟨_,hs.updateMinFree,⟨ha.totalSize,ha.blockList,ha.memory⟩⟩

theorem tlsfFree_cases (hchain : chain p = ks.map Block.addr) (hused : ∀ k ∈ ks, (p.headers
    k.addr).used = k.used) (ho : Owned p ptr) : tlsfFree p ptr = p ∨ ∃ l k r, ks = l++k::r ∧
    k.used = true ∧ tlsfFree p ptr = release p k.addr := by
  cases ptr with
  | none => exact .inl rfl
  | some q =>
    rw [tlsfFree]
    split_ifs with hsig hu
    · exact .inl rfl
    · exact .inl rfl
    · push Not at hsig
      have hu : (p.headers (blockFromPtr t q)).used = true := by simpa using hu
      have hmem := ho q rfl hsig hu
      rw [hchain] at hmem
      obtain ⟨k,hk,hkb⟩ := mem_map.mp hmem
      obtain ⟨l,r,rfl⟩ := append_of_mem hk
      rw [←hkb] at hu ⊢
      exact .inr ⟨l,k,r,rfl,(hused k hk).symm.trans hu,rfl⟩

theorem Sound.free (h : Sound p ks) (ho : Owned p ptr) : ∃ ks', Sound (tlsfFree p ptr) ks' ∧
    SameArea p (tlsfFree p ptr) ∧ (tlsfFree p ptr).minFree = p.minFree ∧ (tlsfFree p
    ptr).usedSize ≤ p.usedSize := by
  rcases tlsfFree_cases h.formed.chain_eq (fun k hk => (h.header_eq hk).2.2) ho with
    heq | ⟨l,k,r,rfl,hk,heq⟩
  · rw [heq]
    exact ⟨ks,h,⟨rfl,rfl,rfl⟩,rfl,le_rfl⟩
  · rw [heq]
    obtain ⟨ks',hs,hf,ha,hm⟩ := h.release hk
    refine ⟨ks',hs,ha,hm,?_⟩
    rw [hs.counted,usedBytes,hf,h.counted]
    change usedBytes t (l++r) ≤ _
    simp only [usedBytes_append,usedBytes_cons]
    omega

theorem Sound.run (h : Sound p ks) (hl : LegalRun p qs) : ∃ ks', Sound (qs.foldl serve p) ks' ∧
    SameArea p (qs.foldl serve p) := by
  induction qs generalizing p ks with
  | nil => exact ⟨ks,h,⟨rfl,rfl,rfl⟩⟩
  | cons q qs ih =>
    have hstep : ∃ ks', Sound (serve p q) ks' ∧ SameArea p (serve p q) := by
      cases q with
      | malloc size => exact h.malloc (noWrap_of_lt hl.1)
      | free ptr =>
        obtain ⟨ks',hs,ha,-⟩ := h.free hl.1
        exact ⟨ks',hs,ha⟩
    obtain ⟨ks',hs,ha⟩ := hstep
    obtain ⟨ks'',hs',ha'⟩ := ih hs hl.2
    exact ⟨ks'',hs',ha.trans ha'⟩

def freeAll (p : Pool t) (bs : List ℕ) : Pool t :=
  bs.foldl (fun p b => tlsfFree p (some (ptrFromBlock t b))) p

theorem Sound.freeAll (h : Sound p ks) (hb : bs.Perm ((ks.filter Block.used).map Block.addr)) :
    ∃ ks', Sound (freeAll p bs) ks' ∧ ks'.filter Block.used = [] ∧ SameArea p (freeAll p bs) := by
  induction bs generalizing p ks with
  | nil => exact ⟨ks,h,map_eq_nil_iff.mp hb.symm.eq_nil,⟨rfl,rfl,rfl⟩⟩
  | cons b bs ih =>
    obtain ⟨k,hk,rfl⟩ := mem_map.mp (hb.subset mem_cons_self)
    obtain ⟨hk,hu⟩ := mem_filter.mp hk
    obtain ⟨l,r,rfl⟩ := append_of_mem hk
    have hfree := h.formed.tlsfFree_eq hk hu (blockFromPtr_ptrFromBlock (t:=t))
    obtain ⟨ks',hs,hfilter,ha,-⟩ := h.release hu
    have hperm : bs.Perm ((ks'.filter Block.used).map Block.addr) := by
      have hmid : ((l++k::r).filter Block.used).Perm (k::(l++r).filter Block.used) := by
        refine (perm_middle.filter Block.used).trans ?_
        rw [filter_cons_of_pos hu]
      rw [hfilter]
      exact (hb.trans (hmid.map Block.addr)).cons_inv
    obtain ⟨ks'',hs',hnone,ha'⟩ := ih hs hperm
    rw [Alloc.freeAll,foldl_cons,hfree]
    exact ⟨ks'',hs',hnone,ha.trans ha'⟩

theorem Sound.eq_wholeBlock (h : Sound p ks) (hu : ks.filter Block.used = []) (hp : 0 < p.totalSize) :
    ks = [wholeBlock p] := by
  have hunused (k : Block) (hk : k ∈ ks) : k.used = false := by
    simpa using filter_eq_nil_iff.mp hu k hk
  have hfree (k : Block) (hk : k ∈ ks) : k.free = true := by
    rw [h.flags k hk,hunused k hk]
    rfl
  match ks with
  | [] =>
    have hend : p.memory = p.memory+p.totalSize := h.tiles
    omega
  | [k] =>
    obtain ⟨haddr,hend⟩ := h.tiles
    have hsize : k.size = p.totalSize-t.blockOverhead := by
      change p.memory+(k.size+t.blockOverhead) = p.memory+p.totalSize at hend
      omega
    rw [wholeBlock,←haddr,←hsize,←hfree k mem_cons_self,←hunused k mem_cons_self]
  | j::k::ks =>
    have hap := (isChain_cons_cons.mp h.apart).1
    exact absurd ⟨hfree j (by simp),hfree k (by simp)⟩ hap

/-- In every run the pool stays consistent, and freeing all live blocks in any order gives back
the one block that it started with. -/
theorem pool_consistent (mem : Buffer t) (hm : mem.size ≤ tlsfMaxPoolSize) (p : Pool t)
    (hc : tlsfCreate (some mem) = some p) (qs : List Request) (hl : LegalRun p qs) :
    Consistent (qs.foldl serve p) ∧ ∀ order, order.Perm (live (qs.foldl serve p)) →
      blocks (freeAll (qs.foldl serve p) order) = [wholeBlock p] := by
  have hmax : mem.size < 2^32 := lt_of_le_of_lt hm (by decide)
  obtain ⟨hs,-⟩ := sound_create hc (by omega)
  have hpos : 0 < p.totalSize := by
    rw [←hs.sum_span]
    exact lt_of_lt_of_le zero_lt_one (length_le_sum_span [wholeBlock p])
  obtain ⟨ks,hks,ha⟩ := hs.run hl
  refine ⟨hks.consistent,fun order hperm => ?_⟩
  rw [live,hks.formed.blocks_eq] at hperm
  obtain ⟨ks',hks',hnone,ha'⟩ := hks.freeAll hperm
  have ha := ha.trans ha'
  rw [hks'.formed.blocks_eq,hks'.eq_wholeBlock hnone (by rw [ha.totalSize]; exact hpos),wholeBlock,
    ha.memory,ha.totalSize,wholeBlock]

def zeroHeader : Header := ⟨0,0,false,false,none,none,none,none⟩

def smallBuffer : Buffer .lp64 := ⟨4096,2048,fun _ => zeroHeader,fun _ => 0,by decide⟩

def smallPool : Pool .lp64 := blockInsertFree (initPool smallBuffer) (initPool smallBuffer).memory

theorem tlsfCreate_smallBuffer : tlsfCreate (some smallBuffer) = some smallPool := by
  rw [tlsfCreate,if_neg (by decide)]
  rfl

/-- Two allocations, a free and a second free of the same pointer. -/
theorem pool_consistent_double_free :
    Consistent ([Request.malloc 100,.malloc 10,.free (some 4448),.free (some 4448)].foldl serve
      smallPool) := by
  exact (pool_consistent smallBuffer (by decide) smallPool tlsfCreate_smallBuffer _
    (by decide +kernel)).1

end TinyDeviceOs.Alloc
