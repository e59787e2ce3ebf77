import TinyDeviceOs.AllocReach

/-! `tlsf_memalign`. A block that is not aligned already is cut a second time, and its front part
goes on a free list while it is still marked used. -/
namespace TinyDeviceOs.Alloc

open List Option

variable {t : Target} {p q : Pool t} {l r ks : List Block} {k : Block} {a n size align : ℕ}

theorem word_eq (t : Target) : ∃ bits, t.word = 2^bits ∧ 2 ≤ bits := by
  cases t
  · exact ⟨64,rfl,by norm_num⟩
  · exact ⟨32,rfl,by norm_num⟩

variable {x y offset : ℕ} {o : Option ℕ}

theorem wordSub_one (h0 : x ≠ 0) (hx : x < t.word) : wordSub t x 1 = x-1 :=
  wordSub_eq hx (Nat.one_le_iff_ne_zero.mpr h0)

theorem isPowerOfTwo_of_check (h0 : align ≠ 0) (hlt : align < t.word)
    (ha : align&&&wordSub t align 1 = 0) : ∃ j, align = 2^j := by
  rw [wordSub_one h0 hlt] at ha
  exact (Nat.and_sub_one_eq_zero_iff_isPowerOfTwo h0).mp ha

theorem alignUp_two_pow (hlt : 2^j < t.word) : ∃ i, alignUp t (2^j) = 2^i ∧ 2^i < t.word ∧
    2^j∣2^i := by
  have hw := word_le t
  rcases lt_or_ge j 2 with hj | hj
  · refine ⟨2,?_,by omega,pow_dvd_pow 2 hj.le⟩
    interval_cases j
    · cases t <;> decide
    · cases t <;> decide
  · refine ⟨j,?_,hlt,dvd_rfl⟩
    obtain ⟨bits,hbits,hb⟩ := word_eq t
    have hdvd : 4∣2^j := pow_dvd_pow 2 hj
    have hwd : 4∣t.word := hbits▸pow_dvd_pow 2 hb
    generalize 2^j = x at *
    rw [alignUp,tlsfBlockAlign,Nat.mod_eq_of_lt (by omega)]
    omega

theorem alignTo_dvd (hi : 2^i < t.word) : 2^i∣alignTo t x (2^i) := by
  obtain ⟨bits,hbits,-⟩ := word_eq t
  have hle : 2^i∣t.word := by
    rw [hbits] at hi ⊢
    exact pow_dvd_pow 2 ((Nat.pow_lt_pow_iff_right (by norm_num)).mp hi).le
  have hpos : 0 < 2^i := Nat.two_pow_pos i
  have hmask : t.word-1-wordSub t (2^i) 1 = t.word-2^i := by
    rw [wordSub_one hpos.ne' hi]
    omega
  rw [Nat.dvd_iff_mod_eq_zero,alignTo,hmask,Nat.and_mod_two_pow,
    Nat.mod_eq_zero_of_dvd (Nat.dvd_sub hle dvd_rfl),Nat.and_zero]

theorem dvd_of_wordSub (hd : d∣t.word) (hx : d∣x) (h : wordSub t x y = 0) : d∣y := by
  rw [wordSub] at h
  have hlt : y%t.word < t.word := Nat.mod_lt _ (by cases t <;> decide)
  have hsum : d∣x+t.word-y%t.word := dvd_trans hd (Nat.dvd_of_mod_eq_zero h)
  have hmod : d∣y%t.word := by
    have hle : y%t.word ≤ x+t.word := by omega
    have := Nat.dvd_sub (dvd_add hx hd) hsum
    rwa [Nat.sub_sub_self hle] at this
  exact (Nat.dvd_mod_iff hd).mp hmod

theorem dvd_of_alignOffset (h0 : align ≠ 0) (hlt : align < t.word) (ha : align&&&wordSub t align
    1 = 0) (hoff : alignOffset t raw (alignUp t align) = 0) : align∣raw := by
  obtain ⟨j,rfl⟩ := isPowerOfTwo_of_check h0 hlt ha
  obtain ⟨i,hi,hiw,hdvd⟩ := alignUp_two_pow hlt
  rw [hi,alignOffset] at hoff
  obtain ⟨bits,hbits,-⟩ := word_eq t
  have hw : 2^i∣t.word := by
    rw [hbits] at hiw ⊢
    exact pow_dvd_pow 2 ((Nat.pow_lt_pow_iff_right (by norm_num)).mp hiw).le
  refine dvd_trans hdvd ?_
  split_ifs at hoff
  · exact dvd_of_wordSub hw (dvd_add (alignTo_dvd hiw) dvd_rfl) hoff
  · exact dvd_of_wordSub hw (alignTo_dvd hiw) hoff

/-- What a call of `tlsf_memalign` that returns `ptr` owes. -/
structure AlignedGrant (p q : Pool t) (align size ptr : ℕ) : Prop where
  aligned : align∣ptr
  room : size ≤ (q.headers (blockFromPtr t ptr)).size
  used : (q.headers (blockFromPtr t ptr)).used = true
  lists : ∀ i, ∀ b ∈ bucket p i, findBlock p (needed t (padded t align size)) ≠ some b →
    b ∈ bucket q i
  flags : ∀ k ∈ blocks q, ¬(k.free = true ∧ k.used = true)
  counted : q.usedSize =
    (p.usedSize+((q.headers (blockFromPtr t ptr)).size+t.blockOverhead))%t.word

/-- No header goes over another, and what is returned keeps the order. -/
def MemalignKeeps (p : Pool t) (align size : ℕ) : Prop :=
  (size ≠ 0 → align&&&wordSub t align 1 = 0 → RequestFits p (padded t align size)) ∧
    ∃ q o, tlsfMemalign p align size = some (q,o) ∧ ∀ ptr ∈ o, AlignedGrant p q align size ptr

theorem Formed.alignedGrant (h : Formed p n ks) (h0 : align ≠ 0) (hlt : align < t.word) (ha :
    align&&&wordSub t align 1 = 0) (hfits : RequestFits p (padded t align size)) (hb : findBlock
    p (needed t (padded t align size)) = some b) (hoff : alignOffset t (ptrFromBlock t b)
    (alignUp t align) = 0) (hroom : size ≤ ((Alloc.grant p b (alignUp t (padded t align
    size))).headers b).size) : AlignedGrant p (updateMinFree (Alloc.grant p b (alignUp t (padded
    t align size)))) align size (ptrFromBlock t b) := by
  have hs := hfits b hb
  obtain ⟨k,hk,rfl,hf⟩ := h.findBlock_free hb
  rw [(h.header_eq hk).1] at hs
  generalize alignUp t (padded t align size) = a at *
  obtain ⟨l,r,rfl⟩ := append_of_mem hk
  have hgrant : Formed (updateMinFree (Alloc.grant p k.addr a)) n
      (l++taken t k a::(rest t { k with free := false } a++r)) :=
    (h.grant hf hs).congr rfl rfl ⟨rfl,rfl,rfl⟩
  obtain ⟨hsize,-,hused⟩ := hgrant.header_eq (k:=taken t k a) mem_mid
  rw [taken_addr] at hsize hused
  refine ⟨dvd_of_alignOffset h0 hlt ha hoff,?_,?_,?_,?_,?_⟩
  · rw [blockFromPtr_ptrFromBlock]
    exact hroom
  · rw [blockFromPtr_ptrFromBlock]
    exact hused
  · intro i b hbi hne
    obtain ⟨hmem,hbf,hbidx⟩ := (h.mem_bucket i b).mp hbi
    obtain ⟨j,hj,rfl⟩ := List.mem_map.mp hmem
    have hjk : j ≠ k := fun e => hne (by rw [hb,e])
    have hj' := mem_of_ne (u:=taken t k a) (m:=rest t { k with free := false } a) hj hjk
    refine (hgrant.mem_bucket i j.addr).mpr ⟨List.mem_map_of_mem hj',?_,?_⟩
    · rw [(hgrant.header_eq hj').2.1,←(h.header_eq hj).2.1]
      exact hbf
    · rw [(hgrant.header_eq hj').1,←(h.header_eq hj).1]
      exact hbidx
  · rw [hgrant.blocks_eq]
    rintro j hj ⟨hjf,hju⟩
    rw [hgrant.flags j hj,hju] at hjf
    cases hjf
  · rw [blockFromPtr_ptrFromBlock,hsize]
    have hcount := h.rep.grant_usedSize hf hs
    rw [Pool.within,over_grant] at hcount
    exact hcount

theorem blockRemoveFree_kept : ((blockRemoveFree p b).headers y).size = (p.headers y).size ∧
    ((blockRemoveFree p b).headers y).used = (p.headers y).used ∧ (blockRemoveFree p b).nextPhys
    y = p.nextPhys y := by
  simp only [Pool.nextPhys]
  cases hprev : (p.headers b).prevFree with
  | none =>
    simp only [blockRemoveFree,hprev,modify_headers,modifyAt_headers,setFreeList_headers]
    split_ifs <;> exact ⟨rfl,rfl,rfl⟩
  | some c =>
    simp only [blockRemoveFree,hprev,modify_headers,modifyAt_headers]
    split_ifs <;> exact ⟨rfl,rfl,rfl⟩

theorem blockSplit_kept (hb : b ≠ y) (hnew : (b+a+t.blockOverhead)%t.word ≠ y) : ((blockSplit p
    b a).1.headers y).free = (p.headers y).free ∧ ((blockSplit p b a).1.headers y).used =
    (p.headers y).used ∧ (blockSplit p b a).1.nextPhys y = p.nextPhys y := by
  simp only [Pool.nextPhys,blockSplit]
  split_ifs
  · exact ⟨rfl,rfl,rfl⟩
  · simp [blockInsertFree_headers,carve_headers,hb,hnew,Pool.nextPhys]

def recutCore (p : Pool t) (block offset : ℕ) : Pool t :=
  markUsed (blockInsertFree (carve (blockRemoveFree p block) block (offset-t.blockOverhead)
    (block+offset) ((p.headers block).size-offset)) block) (block+offset)

theorem recutCore_kept (p : Pool t) (block : ℕ) (hoff : 0 < offset)
    (hy : y ≤ block) :
    ((recutCore p block offset).headers y).used = (p.headers y).used ∧
    (y = block → ((recutCore p block offset).headers y).free = true) ∧
    (y ≠ block → (recutCore p block offset).nextPhys y = p.nextPhys y) := by
  have hnew : block+offset ≠ y := by omega
  obtain ⟨-,hused,hnext⟩ := blockRemoveFree_kept
  simp only [recutCore,markUsed,Pool.nextPhys,modify_headers,if_neg hnew,blockInsertFree_headers,
    carve_headers]
  refine ⟨hused,fun e => by rw [if_pos e.symm],fun e => ?_⟩
  rw [if_neg (Ne.symm e)]
  exact hnext

theorem recutCore_size (p : Pool t) (hoff : 0 < offset) (hlt : (p.headers block).size < 2^32) :
    ((recutCore p block offset).headers (block+offset)).size = (p.headers block).size-offset := by
  have hne : block ≠ block+offset := by omega
  simp only [recutCore,markUsed,modify_headers,if_true,blockInsertFree_headers,carve_headers,
    if_neg hne]
  exact Nat.mod_eq_of_lt (by omega)

theorem recut_some (hq : recut p block offset a = some (q,o)) : t.blockOverhead ≤ offset ∧
    offset ≤ (p.headers block).size ∧ o = some (ptrFromBlock t (block+offset)) ∧ q = if
    (a+minBlockSize t)%t.word ≤ ((recutCore p block offset).headers (block+offset)).size then
    (blockSplit (recutCore p block offset) (block+offset) a).1 else recutCore p block offset := by
  rw [recut] at hq
  split_ifs at hq with hin
  rw [not_or,not_lt,not_lt] at hin
  exact ⟨hin.1,hin.2,(congrArg Prod.snd (some.inj hq)).symm,
    (congrArg Prod.fst (some.inj hq)).symm⟩

theorem sameArea_recut (hq : recut p block offset a = some (q,o)) : SameArea p q := by
  have hsame := ((samePool_blockRemoveFree p block).trans (samePool_carve _ block
    (offset-t.blockOverhead) (block+offset) ((p.headers block).size-offset))).trans
      (samePool_blockInsertFree _ block)
  have hcore : SameArea p (recutCore p block offset) :=
    ⟨hsame.totalSize,hsame.blockList,hsame.memory⟩
  rw [(recut_some hq).2.2.2]
  split_ifs
  · exact hcore.trans (samePool_blockSplit _ _ _).toSameArea
  · exact hcore

theorem split_behind (ha : a < t.word) (hoff : t.blockOverhead ≤ off) (hs : off ≤ s) (hend :
    x+(s+t.blockOverhead) ≤ t.word) (htest : (a+minBlockSize t)%t.word ≤ s-off) : x <
    (x+off+a+t.blockOverhead)%t.word := by
  have hov : 4 < t.blockOverhead := by cases t <;> decide
  rw [minBlockSize,tlsfBlockAlign] at htest
  rcases lt_or_ge (a+(t.blockOverhead+4)) t.word with hlt | hge
  · rw [Nat.mod_eq_of_lt hlt] at htest
    rw [Nat.mod_eq_of_lt (by omega)]
    omega
  · have hsum : x+off+a+t.blockOverhead = (x+off+a+t.blockOverhead-t.word)+t.word := by omega
    rw [hsum,Nat.add_mod_right,Nat.mod_eq_of_lt (by omega)]
    omega

theorem Formed.recut_flags (h : Formed p n (l++k::r)) (hu : k.used = true)
    (ha : a < t.word) (offset : ℕ) (hq : recut p k.addr offset a = some (q,o)) :
    ∃ j ∈ blocks q, j.free = true ∧ j.used = true := by
  obtain ⟨hks,-,hku⟩ := h.header_eq (k:=k) mem_mid
  have hklt := h.size_lt (k:=k) mem_mid
  have hend := (h.rep.tiles.mem_bounds (k:=k) mem_mid).2
  have hword : p.memory+n ≤ t.word := h.rep.fits.memory_le
  change _ ≤ p.memory+n at hend
  rw [Block.span] at hend
  obtain ⟨hlo,hhi,-,heq⟩ := recut_some hq
  rw [hks] at hhi
  have hov := blockOverhead_pos t
  have hoff : 0 < offset := by omega
  have hcore (y : ℕ) (hy : y ≤ k.addr) := recutCore_kept p k.addr hoff hy
  rw [recutCore_size p hoff (hks▸hklt),hks] at heq
  -- a header that the last split writes lies behind the front part
  have hkept (y : ℕ) (hy : y ≤ k.addr) :
      (q.headers y).free = ((recutCore p k.addr offset).headers y).free ∧
      (q.headers y).used = ((recutCore p k.addr offset).headers y).used ∧
      q.nextPhys y = (recutCore p k.addr offset).nextPhys y := by
    rw [heq]
    split_ifs with htest
    · have hnew := split_behind (x:=k.addr) (s:=k.size) ha hlo hhi (by omega) htest
      exact blockSplit_kept (by omega) (by omega)
    · exact ⟨rfl,rfl,rfl⟩
  have hsame := sameArea_recut hq
  have hmem : k.addr ∈ chain q := by
    have hpath := h.rep.phys.path
    rw [map_append,map_cons] at hpath
    rw [chain,hsame.blockList,hsame.totalSize]
    refine hpath.mem_walk ?_ ?_
    · intro y hy
      obtain ⟨j,hj,rfl⟩ := List.mem_map.mp hy
      have hlt := h.rep.tiles.around.1 j hj
      rw [Block.span] at hlt
      rw [(hkept j.addr (by omega)).2.2]
      exact (hcore j.addr (by omega)).2.2 (by omega)
    · have hlen := h.length_le
      rw [length_append,length_cons] at hlen
      rw [length_map]
      omega
  refine ⟨blockAt q k.addr,List.mem_map_of_mem hmem,?_,?_⟩
  · change (q.headers k.addr).free = true
    rw [(hkept k.addr le_rfl).1,(hcore k.addr le_rfl).2.1 rfl]
  · change (q.headers k.addr).used = true
    rw [(hkept k.addr le_rfl).2.1,(hcore k.addr le_rfl).1,hku,hu]

/-- A free block of 300 bytes, and a used one behind it. -/
def holedPool : Pool .lp64 := tlsfFree (tlsfMalloc (tlsfMalloc smallPool 300).1 100).1 (some 4448)

theorem reachable_holedPool : Reachable holedPool := by
  have hfirst : Reachable (tlsfMalloc smallPool 300).1 :=
    (Reachable.create smallBuffer tlsfCreate_smallBuffer).call (.malloc 300)
      (show RequestFits _ _ by decide +kernel) rfl
  have hsecond : Reachable (tlsfMalloc (tlsfMalloc smallPool 300).1 100).1 :=
    hfirst.call (.malloc 100) (show RequestFits _ _ by decide +kernel) rfl
  exact hsecond.call (.free (some 4448)) (show Owned _ _ by decide +kernel) rfl

end TinyDeviceOs.Alloc
