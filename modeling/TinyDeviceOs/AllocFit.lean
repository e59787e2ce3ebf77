import TinyDeviceOs.AllocReach

/-! Which requests `tlsf_malloc` serves, and how large the blocks are that it hands out. -/
namespace TinyDeviceOs.Alloc

open LinkedList List Option

variable {t : Target} {p q : Pool t} {l r ks : List Block} {k : Block} {a b n size total : ℕ} {l' r'
  : List Block} {k' m : Block}

theorem tlsfFls_bounds (h0 : 0 < x) (hx : x < 2^32) :
    2^tlsfFls x ≤ x ∧ x < 2^(tlsfFls x+1) := by
  unfold tlsfFls
  simp only [Nat.shiftRight_eq_div_pow]
  split_ifs <;> constructor <;> norm_num <;> omega

theorem tlsfFls_eq_log2 (hx : x < 2^32) : tlsfFls x = x.log2 := by
  rcases eq_zero_or_pos x with rfl | h0
  · decide
  · exact ((Nat.log2_eq_iff h0.ne').mpr (tlsfFls_bounds h0 hx)).symm

theorem tlsfGetIndex_val : (tlsfGetIndex s).val = (s%2^32).log2 := by
  have hlt : s%2^32 < 2^32 := Nat.mod_lt _ (by norm_num)
  have hfl : tlsfGetFlIndex s = (s%2^32).log2 := tlsfFls_eq_log2 hlt
  have hlog : (s%2^32).log2 < 32 := by
    rcases eq_zero_or_pos (s%2^32) with h0 | h0
    · rw [h0]
      decide
    · exact (Nat.log2_lt h0.ne').mpr hlt
  rw [tlsfGetIndex,dif_pos (hfl▸hlog)]
  exact hfl

theorem tlsfGetIndex_mono (hxy : x ≤ y) (hy : y < 2^32) : tlsfGetIndex x ≤ tlsfGetIndex y := by
  rw [Fin.le_def,tlsfGetIndex_val,tlsfGetIndex_val,Nat.mod_eq_of_lt (by omega : x < 2^32),
    Nat.mod_eq_of_lt hy,Nat.log2_eq_log_two,Nat.log2_eq_log_two]
  exact Nat.log_mono_right hxy

theorem Formed.findBlock_fits (h : Formed p n ks) (ht : total < 2^32)
    (hb : findBlock p total = some b) : total ≤ (p.headers b).size := by
  obtain ⟨i,-,hi⟩ := exists_of_findSome?_eq_some hb
  split_ifs at hi with hlt heq
  · simpa using find?_some hi
  · have hin : InBucket p ks i b := h.rep.head_inBucket hi
    obtain ⟨k,hk,rfl⟩ := List.mem_map.mp hin.1
    have hsize := h.size_lt hk
    rw [←(h.header_eq hk).1] at hsize
    by_contra hcon
    have hmono := tlsfGetIndex_mono (Nat.le_of_not_le hcon) ht
    rw [hin.2.2] at hmono
    omega

/-- A free block that is large enough is not overlooked. -/
theorem Formed.findBlock_complete (h : Formed p n ks) (hk : k ∈ ks) (hf : k.free = true)
    (hle : total ≤ k.size) : ∃ b, findBlock p total = some b := by
  have hmem : k.addr ∈ bucket p (tlsfGetIndex k.size) :=
    (h.mem_bucket _ _).mpr ⟨List.mem_map_of_mem hk,(h.header_eq hk).2.1.trans hf,by
      rw [(h.header_eq hk).1]⟩
  have hmono := tlsfGetIndex_mono hle (h.size_lt hk)
  refine isSome_iff_exists.mp (findSome?_isSome_iff.mpr
    ⟨tlsfGetIndex k.size,mem_finRange _,?_⟩)
  rw [if_neg (Fin.not_lt.mpr hmono)]
  split_ifs with heq
  · exact find?_isSome.mpr ⟨k.addr,hmem,by rw [(h.header_eq hk).1]; exact decide_eq_true hle⟩
  · rw [bucket] at hmem
    cases hhead : p.freeList (tlsfGetIndex k.size) with
    | some b => rfl
    | none =>
      rw [hhead] at hmem
      cases hfuel : p.totalSize with
      | zero => simp [hfuel,walk] at hmem
      | succ m => simp [hfuel,walk] at hmem

theorem Formed.findBlock_none (h : Formed p n ks) (ht : total < 2^32) :
    findBlock p total = none ↔ ∀ k ∈ ks, k.free = true → k.size < total := by
  constructor
  · intro hnone k hk hf
    by_contra hcon
    obtain ⟨b,hb⟩ := h.findBlock_complete hk hf (Nat.le_of_not_lt hcon)
    exact some_ne_none b (hb.symm.trans hnone)
  · intro hall
    by_contra hcon
    obtain ⟨b,hb⟩ := ne_none_iff_exists'.mp hcon
    obtain ⟨k,hk,rfl,hf⟩ := h.findBlock_free hb
    have hfits := h.findBlock_fits ht hb
    rw [(h.header_eq hk).1] at hfits
    exact absurd (hall k hk hf) (not_lt.mpr hfits)

/-- `tlsf_malloc` gives up only if no free block has the bytes. -/
def Complete (p : Pool t) (size : ℕ) : Prop :=
  (tlsfMalloc p size).2 = none → ∀ k ∈ blocks p, k.free = true → k.size < alignUp t size

/-- Some free block has the bytes of the request and another header. -/
def HasRoom (p : Pool t) (size : ℕ) : Prop :=
  ∃ k ∈ blocks p, k.free = true ∧ alignUp t size+t.blockOverhead ≤ k.size
  deriving Decidable

def joined (p : Pool t) (b : ℕ) : ℕ :=
  (p.headers b).size+
    ((freeNeighbour p (p.headers b).prevPhys).map fun c => (p.headers c).size+t.blockOverhead).getD 0+
    ((freeNeighbour p (p.headers b).nextPhys).map fun c => (p.headers c).size+t.blockOverhead).getD 0

theorem needed_eq (hs : size ≤ tlsfMaxPoolSize) : needed t size = alignUp t size+t.blockOverhead ∧
    alignUp t size+t.blockOverhead < 2^32 := by
  have hw := word_le t
  have hov : t.blockOverhead ≤ 48 := by cases t <;> decide
  have hal : alignUp t size ≤ size+3 := le_trans (Nat.sub_le _ _) (Nat.mod_le _ _)
  rw [tlsfMaxPoolSize] at hs
  exact ⟨Nat.mod_eq_of_lt (by omega),by omega⟩

theorem Formed.malloc_none (h : Formed p n ks) (h1 : 1 ≤ size) (hs : size ≤ tlsfMaxPoolSize) :
    (tlsfMalloc p size).2 = none ↔ ¬HasRoom p size := by
  obtain ⟨hneed,hlt⟩ := needed_eq (t:=t) hs
  have hnone := h.findBlock_none hlt
  rw [←hneed] at hnone
  have hroom : ¬HasRoom p size ↔ ∀ k ∈ ks, k.free = true → k.size < needed t size := by
    rw [HasRoom,h.blocks_eq,hneed]
    push Not
    rfl
  rw [hroom,←hnone]
  rcases tlsfMalloc_cases p size with ⟨hz,heq⟩ | ⟨-,b,hb,heq⟩
  · rw [heq]
    exact iff_of_true rfl (hz.resolve_left (by omega))
  · rw [heq,hb]
    exact iff_of_false (some_ne_none _) (some_ne_none _)

theorem Formed.freeNeighbour_eq (h : Formed p n ks) (hj : j ∈ ks) : freeNeighbour p (some
    j.addr) = if j.free = true then some j.addr else none :=
  h.rep.freeNeighbour_eq hj

section

variable (hm : Merged l r k' l' r' m) (h : Formed p n (l++k::r))
include hm h

theorem Merged.left_sum : (l.map (Block.span t)).sum = (l'.map (Block.span t)).sum+
    ((freeNeighbour p (p.headers k.addr).prevPhys).map fun c => (p.headers
    c).size+t.blockOverhead).getD 0 := by
  have hprev : (p.headers k.addr).prevPhys = l.getLast?.map Block.addr := h.rep.prevPhys_eq
  rw [hprev]
  rcases hm.left with ⟨rfl,hlast⟩ | ⟨j,rfl,hj⟩
  · rcases eq_nil_or_concat l' with rfl | ⟨l₂,j,rfl⟩
    · rfl
    · have hjf : j.free = false := hlast j (by simp)
      rw [concat_eq_append,getLast?_concat,map_some,h.freeNeighbour_eq (by simp)]
      simp [hjf]
  · rw [getLast?_concat,map_some,h.freeNeighbour_eq (by simp),if_pos hj,map_some,
      (h.header_eq (k:=j) (by simp)).1]
    simp [Block.span]

theorem Merged.right_sum : (r.map (Block.span t)).sum = (r'.map (Block.span t)).sum+
    ((freeNeighbour p (p.headers k.addr).nextPhys).map fun c => (p.headers
    c).size+t.blockOverhead).getD 0 := by
  have hnext : (p.headers k.addr).nextPhys = r.head?.map Block.addr := h.rep.nextPhys_eq
  rw [hnext]
  rcases hm.right with ⟨rfl,hhead⟩ | ⟨j,rfl,hj⟩
  · cases r' with
    | nil => rfl
    | cons j r₂ =>
      have hjf : j.free = false := hhead j rfl
      rw [head?_cons,map_some,h.freeNeighbour_eq (by simp)]
      simp [hjf]
  · rw [head?_cons,map_some,h.freeNeighbour_eq (by simp),if_pos hj,map_some,
      (h.header_eq (k:=j) (by simp)).1]
    simp only [map_cons,sum_cons,getD_some,Block.span]
    omega

end

theorem sum_middle : ((l++k::r).map (Block.span t)).sum = k.span t+((l.map (Block.span
    t)).sum+(r.map (Block.span t)).sum) := by
  simp only [map_append,map_cons,sum_append,sum_cons]
  omega

/-- The block that a free leaves, and what becomes of the others. -/
theorem Formed.release_joined (h : Formed p n (l++k::r)) (hk : k.used = true) :
    ∃ l' m r', Formed (Alloc.release p k.addr) n (l'++m::r') ∧ m.free = true ∧
      m.size = joined p k.addr ∧ (∀ j ∈ l'++r', j ∈ l++r) ∧
      ∀ j ∈ l++r, j ∈ l'++r' ∨ j.size ≤ m.size := by
  obtain ⟨l',m,r',hf,-,hm⟩ := h.release_merged hk
  have hsum := hf.rep.sum_span.trans h.rep.sum_span.symm
  have hleft := hm.left_sum h
  have hright := hm.right_sum h
  rw [sum_middle,sum_middle] at hsum
  have hspan (k : Block) : k.span t = k.size+t.blockOverhead := rfl
  have hmspan : Block.span t { m with free := true } = m.size+t.blockOverhead := rfl
  have hjoin : m.size = joined p k.addr := by
    rw [joined,(h.header_eq (k:=k) mem_mid).1]
    rw [hspan k,hmspan] at hsum
    omega
  refine ⟨l',_,r',hf,rfl,hjoin,hm.subset,fun j hj => ?_⟩
  rcases mem_append.mp hj with hj | hj
  · rcases hm.left with ⟨rfl,-⟩ | ⟨i,rfl,-⟩
    · exact .inl (mem_append_left _ hj)
    · rcases mem_append.mp hj with hj | hj
      · exact .inl (mem_append_left _ hj)
      · obtain rfl := mem_singleton.mp hj
        refine .inr ?_
        simp only [map_append,sum_append,map_cons,map_nil,sum_cons,
          sum_nil,hspan] at hleft hsum
        change j.size ≤ m.size
        omega
  · rcases hm.right with ⟨rfl,-⟩ | ⟨i,rfl,-⟩
    · exact .inl (mem_append_right _ hj)
    · rcases mem_cons.mp hj with rfl | hj
      · refine .inr ?_
        simp only [map_cons,sum_cons,hspan] at hright hsum
        change j.size ≤ m.size
        omega
      · exact .inl (mem_append_right _ hj)

theorem Formed.hasRoom_release (h : Formed p n ks) (hk : k ∈ ks) (hu : k.used = true) :
    HasRoom (Alloc.release p k.addr) size ↔
      HasRoom p size ∨ alignUp t size+t.blockOverhead ≤ joined p k.addr := by
  obtain ⟨l,r,rfl⟩ := append_of_mem hk
  obtain ⟨l',m,r',hf,hmf,hm,hsub,hstay⟩ := h.release_joined hu
  rw [HasRoom,hf.blocks_eq,HasRoom,h.blocks_eq,←hm]
  constructor
  · rintro ⟨j,hj,hjf,hle⟩
    rcases mem_middle.mp hj with rfl | hj
    · exact .inr hle
    · exact .inl ⟨j,mem_middle.mpr (.inr (hsub j hj)),hjf,hle⟩
  · rintro (⟨j,hj,hjf,hle⟩ | hle)
    · have hjk : j ≠ k := fun e => by
        rw [e,h.not_free hk hu] at hjf
        cases hjf
      rcases hstay j ((mem_middle.mp hj).resolve_left hjk) with hj | hj
      · exact ⟨j,mem_middle.mpr (.inr hj),hjf,hle⟩
      · exact ⟨m,mem_mid,hmf,le_trans hle hj⟩
    · exact ⟨m,mem_mid,hmf,hle⟩

theorem reachable_smallPool : Reachable smallPool :=
  Reachable.create smallBuffer tlsfCreate_smallBuffer

/-- A block of 100 bytes, and the rest in a second one. -/
def fullPool : Pool .lp64 := (tlsfMalloc (tlsfMalloc smallPool 100).1 1500).1

def MallocEnough (p : Pool t) (size : ℕ) : Prop :=
  ∀ ptr ∈ (tlsfMalloc p size).2,
    size ≤ ((tlsfMalloc p size).1.headers (blockFromPtr t ptr)).size

/-- It stays in its block and gives null or at least `nmemb*size` bytes. -/
def CallocEnough (heap : Heap t) (pool : Option (Pool t)) (nmemb size : ℕ) : Prop :=
  ∃ r, osCalloc heap pool nmemb size = some r ∧ ∀ ptr ∈ r.2, ∃ p ∈ r.1,
    nmemb*size ≤ (p.headers (blockFromPtr t ptr)).size

theorem blockSplit_size (hb : (p.headers b).size < 2^32) : ((blockSplit p b a).1.headers b).size
    < 2^32 := by
  rw [blockSplit]
  split_ifs
  · exact hb
  · rw [blockInsertFree_headers,carve_headers]
    simp only [if_true]
    exact Nat.mod_lt _ (by norm_num)

theorem grant_size_lt (hb : (p.headers b).size < 2^32) (hrem : ((blockRemoveFree p b).headers
    b).size = (p.headers b).size) : ((grant p b a).headers b).size < 2^32 := by
  have hmark (q : Pool t) : ((markUsed q b).headers b).size = (q.headers b).size := by
    simp [markUsed,modify_headers]
  rw [grant,hmark,trim]
  split_ifs
  · exact blockSplit_size (hrem▸hb)
  · exact hrem▸hb

theorem alignUp_bounds (t : Target) (h : size+3 < t.word) : size ≤ alignUp t size ∧ alignUp t
    size ≤ size+3 := by
  rw [alignUp,tlsfBlockAlign,Nat.mod_eq_of_lt (by omega)]
  omega

section

variable (h : Formed p n ks) (hb : findBlock p total = some b)
include h hb

theorem Formed.grant_size (hs : SplitFits t (p.headers b).size a) : ((Alloc.grant p b a).headers
    b).size = keptSize t (p.headers b).size a := by
  obtain ⟨k,hk,rfl,hf⟩ := h.findBlock_free hb
  obtain ⟨l,r,rfl⟩ := append_of_mem hk
  rw [(h.header_eq hk).1] at hs ⊢
  have hsize := ((h.grant hf hs).header_eq (k:=taken t k a) mem_mid).1
  rwa [taken_addr,taken_size] at hsize

theorem Formed.granted_lt (a : ℕ) : (p.headers b).size < 2^32 ∧ ((Alloc.grant p b a).headers
    b).size < 2^32 := by
  obtain ⟨k,hk,rfl,hf⟩ := h.findBlock_free hb
  have hlt := h.size_lt hk
  rw [←(h.header_eq hk).1] at hlt
  obtain ⟨l,r,rfl⟩ := append_of_mem hk
  have hrem := ((h.rep.removeFree hf).header_eq (k:={ k with free := false }) mem_mid).1
  rw [Pool.within,over_blockRemoveFree] at hrem
  exact ⟨hlt,grant_size_lt hlt (hrem.trans (h.header_eq hk).1.symm)⟩

end

/-- A request below four gigabytes is rounded up without wrap-around. -/
theorem Formed.grant_enough {p : Pool .lp64} {need : ℕ} (h : Formed p n ks)
    (hb : findBlock p (needed .lp64 need) = some b) (hlt : need < 2^32) :
    need ≤ ((Alloc.grant p b (alignUp .lp64 need)).headers b).size ↔
      need+51 < 2^32 ∨ need ≤ (p.headers b).size := by
  have hold := (h.granted_lt hb 0).1
  have hword : Target.word .lp64 = 2^64 := rfl
  have hover : Target.blockOverhead .lp64 = 48 := rfl
  have hmin : minBlockSize .lp64 = 52 := rfl
  have hsmall : need+3 < Target.word .lp64 := by omega
  obtain ⟨hlo,hhi⟩ := alignUp_bounds .lp64 hsmall
  have hal := alignUp_mod .lp64 need
  have hneed : needed .lp64 need = alignUp .lp64 need+48 := by
    rw [needed,hover,hword,Nat.mod_eq_of_lt (by omega)]
  have hsize := h.grant_size hb (splitFits_of_lt (t:=.lp64) (a:=alignUp .lp64 need) _ (by omega))
  rw [hsize,keptSize,hover,hmin]
  rcases lt_or_ge (need+51) (2^32) with hsmall | hbig
  · have hfits := h.findBlock_fits (by omega) hb
    refine iff_of_true ?_ (.inl hsmall)
    split_ifs <;> omega
  · rw [if_neg (by omega)]
    exact ⟨.inr,fun h => h.resolve_left (by omega)⟩

theorem Formed.enough_iff {p : Pool .lp64} (h : Formed p n ks) (need : ℕ) :
    (∀ ptr ∈ (tlsfMalloc p (need%2^64)).2,
      need ≤ ((tlsfMalloc p (need%2^64)).1.headers (blockFromPtr .lp64 ptr)).size) ↔
    need+51 < 2^32 ∨ need%2^64 = 0 ∨
      ∀ b ∈ findBlock p (needed .lp64 (need%2^64)), need ≤ (p.headers b).size := by
  generalize hs : need%2^64 = s
  rcases tlsfMalloc_cases p s with ⟨hnone,heq⟩ | ⟨hz,b,hb,heq⟩
  · rw [heq]
    refine iff_of_true (by simp) (.inr ?_)
    rcases hnone with h0 | hfind
    · exact .inl h0
    · rw [hfind]
      exact .inr (by simp)
  rw [heq,hb]
  have hserved : (∀ ptr ∈ some (ptrFromBlock .lp64 b), need ≤
      ((updateMinFree (Alloc.grant p b (alignUp .lp64 s))).headers (blockFromPtr .lp64 ptr)).size) ↔
      need ≤ ((Alloc.grant p b (alignUp .lp64 s)).headers b).size := by
    simp only [mem_def,some.injEq,forall_eq',blockFromPtr_ptrFromBlock]
    rfl
  rw [hserved]
  simp only [mem_def,some.injEq,forall_eq',hz,false_or]
  obtain ⟨hold,hnew⟩ := h.granted_lt hb (alignUp .lp64 s)
  rcases lt_or_ge need (2^32) with hlt | hge
  · rw [Nat.mod_eq_of_lt (by omega)] at hs
    subst hs
    exact h.grant_enough hb hlt
  · exact iff_of_false (by omega) (by omega)

theorem systemPool_reachable (heap : Heap t) (pool : Option (Pool t))
    (hpool : ∀ s ∈ pool, Reachable s) : ∃ s, systemPool heap pool = some s ∧ Reachable s := by
  cases pool with
  | some s => exact ⟨s,rfl,hpool s rfl⟩
  | none =>
    have hsize : ¬heap.1.size < t.poolOverhead+minBlockSize t := by
      rw [heap.2]
      cases t <;> decide
    have hcreate : systemPool heap none =
        some (blockInsertFree (initPool heap.1) (initPool heap.1).memory) := by
      simp only [systemPool,tlsfCreate,if_neg hsize]
    exact ⟨_,hcreate,Reachable.create heap.1 hcreate⟩

theorem callocEnough_iff {heap : Heap t} {pool : Option (Pool t)} {s : Pool t} {nmemb m : ℕ}
    (hs : systemPool heap pool = some s) : CallocEnough heap pool nmemb m ↔
      ∀ ptr ∈ (tlsfMalloc s (nmemb*m%t.word)).2, nmemb*m ≤
        ((tlsfMalloc s (nmemb*m%t.word)).1.headers (blockFromPtr t ptr)).size := by
  have hle : nmemb*m%t.word ≤ nmemb*m := Nat.mod_le _ _
  rw [CallocEnough]
  simp only [osCalloc,osMalloc,hs]
  generalize nmemb*m = need at *
  cases (tlsfMalloc s (need%t.word)).2 with
  | none => exact iff_of_true ⟨_,rfl,by simp⟩ (by simp)
  | some ptr =>
    simp only [mem_def,some.injEq,forall_eq']
    constructor
    · rintro ⟨r,hr,henough⟩
      split_ifs at hr
      obtain rfl := some.inj hr
      obtain ⟨q,hq,hsize⟩ := henough ptr rfl
      obtain rfl := some.inj hq
      exact hsize
    · intro hsize
      rw [if_neg (by omega)]
      refine ⟨_,rfl,fun ptr' hptr => ?_⟩
      obtain rfl := some.inj hptr
      exact ⟨_,rfl,hsize⟩

def systemHeap : Heap .lp64 := ⟨⟨4096,16*1024,fun _ => zeroHeader,fun _ => 0,by decide⟩,rfl⟩

end TinyDeviceOs.Alloc
