import TinyDeviceOs.AllocRuns

/-! The counters of the pool under `tlsf_realloc`, which never touches `used_size` and `min_free`:
they stay right exactly while the block keeps its size or moves. -/
namespace TinyDeviceOs.Alloc

open List

variable {t : Target} {p : Pool t} {l r ks : List Block} {k : Block} {a : ℕ}

inductive Call
  | malloc (size : ℕ)
  | realloc (ptr : Option ℕ) (size : ℕ)
  | free (ptr : Option ℕ)

section

variable (p)

/-- `none` if the call wrote outside its block. -/
def perform : Call → Option (Pool t)
  | .malloc size => some (tlsfMalloc p size).1
  | .realloc ptr size => (tlsfRealloc p ptr size).map Prod.fst
  | .free ptr => some (tlsfFree p ptr)

/-- The copy has room in the block that the move gets. -/
def CopyFits (k : Block) (a : ℕ) : Prop :=
  ∀ b ∈ findBlock p (a+t.blockOverhead), k.size ≤ (kept t (blockAt p b) a).size
  deriving Decidable

/-- A block that stays in place keeps its size. -/
def Steady (k : Block) (next : Option Block) (a : ℕ) : Prop :=
  if a+t.blockOverhead ≤ k.size then ¬Cut t k a
  else match next with
    | some n =>
      if n.free = true ∧ a+t.blockOverhead ≤ k.size+t.blockOverhead+n.size then
        k.size = a ∧ minBlockSize t ≤ n.size
      else CopyFits p k a
    | none => CopyFits p k a

def LivePtr (ptr : Option ℕ) : Prop := ∀ q ∈ ptr, blockFromPtr t q ∈ live p
  deriving Decidable

/-- The calls after which the counters are right. -/
def Safe : Call → Prop
  | .malloc size => NoWrap t size
  | .free ptr => LivePtr p ptr
  | .realloc none size => NoWrap t size
  | .realloc (some q) size => LivePtr p (some q) ∧ (size = 0 ∨ NoWrap t size ∧
      Steady p (blockAt p (blockFromPtr t q))
        ((p.headers (blockFromPtr t q)).nextPhys.map (blockAt p)) (alignUp t size))

end

def SafeRun (p : Pool t) : List Call → Prop
  | [] => True
  | c::cs => Safe p c ∧ ∀ q ∈ perform p c, SafeRun q cs

instance (p : Pool t) (k : Block) (a : ℕ) (next : Option Block) :
    Decidable (Steady p k next a) := by
  cases next <;> unfold Steady <;> infer_instance

instance (p : Pool t) (c : Call) : Decidable (Safe p c) := by
  unfold Safe
  split <;> infer_instance

instance decidableSafeRun (p : Pool t) : (cs : List Call) → Decidable (SafeRun p cs)
  | [] => inferInstanceAs (Decidable True)
  | c::cs =>
    have := fun q => decidableSafeRun q cs
    inferInstanceAs (Decidable (Safe p c ∧ ∀ q ∈ perform p c, SafeRun q cs))

def visited (p : Pool t) : List Call → Option (List (Pool t))
  | [] => some [p]
  | c::cs => do
    let q ← perform p c
    let qs ← visited q cs
    return p::qs

structure Tracked (p : Pool t) : Prop where
  sound : ∃ ks, Sound p ks
  min_le : p.minFree ≤ tlsfPoolFreeSize p

structure Advances (p q : Pool t) : Prop where
  tracked : Tracked q
  min_le : q.minFree ≤ p.minFree

theorem Advances.refl (h : Tracked p) : Advances p p := ⟨h,le_rfl⟩

theorem Advances.trans (h : Advances p q) (h' : Advances q s) : Advances p s :=
  ⟨h'.tracked,le_trans h'.min_le h.min_le⟩

theorem Tracked.samePool (h : Tracked p) (hs : Sound q ks) (hq : SamePool p q) : Advances p q := by
  obtain ⟨ks',hs'⟩ := h.sound
  have hb := hs.balance
  have hb' := hs'.balance
  have hmin := h.min_le
  rw [hq.totalSize,hq.usedSize] at hb
  refine ⟨⟨⟨ks,hs⟩,?_⟩,hq.minFree.le⟩
  rw [hq.minFree]
  omega

variable {size : ℕ}

theorem Tracked.malloc (h : Tracked p) (hw : NoWrap t size) :
    Advances p (tlsfMalloc p size).1 := by
  obtain ⟨ks,hs⟩ := h.sound
  rcases hs.malloc_cases hw with heq | ⟨l,k,r,rfl,hk,-,heq⟩
  · rw [heq]
    exact Advances.refl h
  · obtain ⟨hs',-,hm⟩ := hs.grant hk hw
    rw [heq]
    refine ⟨⟨⟨_,hs'.updateMinFree⟩,min_le_right _ _⟩,?_⟩
    rw [←hm]
    exact min_le_left _ _

theorem Tracked.free (h : Tracked p) (ho : Owned p ptr) :
    Advances p (tlsfFree p ptr) := by
  obtain ⟨ks,hs⟩ := h.sound
  obtain ⟨ks',hs',ha,hm,hu⟩ := hs.free ho
  have hb := hs.balance
  have hb' := hs'.balance
  have hmin := h.min_le
  rw [ha.totalSize] at hb'
  exact ⟨⟨⟨ks',hs'⟩,by omega⟩,by omega⟩

theorem Sound.owned_of_live (h : Sound p ks) (hp : LivePtr p ptr) :
    Owned p ptr := by
  intro q hq _ _
  obtain ⟨k,hk,hb,-⟩ := h.formed.mem_live.mp (hp q hq)
  rw [h.formed.chain_eq,←hb]
  exact mem_map_of_mem hk

theorem alignUp_mod (t : Target) (size : ℕ) : alignUp t size%4 = 0 := by
  rw [alignUp,tlsfBlockAlign]
  omega

theorem alignUp_lt (t : Target) (size : ℕ) : alignUp t size < t.word :=
  lt_of_le_of_lt (Nat.sub_le _ _) (Nat.mod_lt _ (by cases t <;> decide))

theorem alignUp_idem (t : Target) (size : ℕ) : alignUp t (alignUp t size) = alignUp t size := by
  have hmod := alignUp_mod t size
  have hlt := alignUp_lt t size
  have hword : t.word%4 = 0 := by cases t <;> decide
  generalize alignUp t size = a at *
  rw [alignUp,tlsfBlockAlign,Nat.mod_eq_of_lt (by omega)]
  omega

theorem NoWrap.alignUp (h : NoWrap t size) : NoWrap t (alignUp t size) := by
  rw [NoWrap,alignUp_idem]
  exact h

theorem kept_size (k : Block) (a : ℕ) :
    (kept t k a).size = if a+t.blockOverhead+minBlockSize t ≤ k.size then a else k.size := by
  rw [kept]
  by_cases hc : Cut t k a
  · rw [if_pos hc,if_pos (show _ ≤ _ from hc)]
  · rw [if_neg hc,if_neg (show ¬_ ≤ _ from hc)]

def keptSize (t : Target) (s a : ℕ) : ℕ :=
  if a+t.blockOverhead+minBlockSize t ≤ s then a else s

theorem taken_size : (taken t k a).size = keptSize t k.size a :=
  kept_size { k with free := false } a

theorem taken_addr : (taken t k a).addr = k.addr :=
  kept_addr { k with free := false } a

theorem Sound.regrow (h : Sound p (l++k::n::r)) (hk : k.used = true)
    (hn : n.free = true) (hmin : minBlockSize t ≤ n.size)
    (hw : k.size+t.blockOverhead+minBlockSize t < t.word) :
    Sound (trim (absorb (blockRemoveFree p n.addr) k.addr n.addr) k.addr k.size
      (k.size+t.blockOverhead)) (l++k::n::r) ∧
    SamePool p (trim (absorb (blockRemoveFree p n.addr) k.addr n.addr) k.addr k.size
      (k.size+t.blockOverhead)) := by
  have hkf : k.free = false := by rw [h.flags k mem_mid,hk]; rfl
  have htrim := (h.toRepresents.grow hkf hn).trim hkf hw
  have hnu : n.used = false := by simpa [hn] using h.flags n (by simp)
  have haddr : n.addr = k.addr+k.span t := by
    obtain ⟨m,-,rfl,hn',-⟩ := tiles_append.mp h.tiles
    exact hn'
  have hcut : Cut t { k with size := k.size+t.blockOverhead+n.size } k.size := by
    rw [Cut]
    change _ ≤ k.size+t.blockOverhead+n.size
    omega
  have hrest : rest t { k with size := k.size+t.blockOverhead+n.size } k.size = [n] := by
    rw [rest,if_pos hcut]
    congr 1
    obtain ⟨na,ns,nf,nu⟩ := n
    simp only [Block.mk.injEq]
    exact ⟨haddr.symm,by omega,hn.symm,hnu.symm⟩
  have hkept : kept t { k with size := k.size+t.blockOverhead+n.size } k.size = k := by
    rw [kept,if_pos hcut]
  rw [hrest,hkept] at htrim
  have hsame := ((samePool_blockRemoveFree p n.addr).trans
    (samePool_absorb _ k.addr n.addr)).trans (samePool_trim _ k.addr k.size (k.size+t.blockOverhead))
  exact ⟨⟨htrim,h.flags,h.apart,by rw [hsame.usedSize]; exact h.counted⟩,hsame⟩

theorem Tracked.memcpy (h : Tracked p) (dst src n : ℕ) : Tracked (memcpy p dst src n) := by
  obtain ⟨ks,hs⟩ := h.sound
  exact ⟨⟨ks,hs.toRepresents.congr rfl rfl ⟨rfl,rfl,rfl⟩,hs.flags,hs.apart,hs.counted⟩,h.min_le⟩

theorem mem_of_ne {u : Block} {m : List Block} (hj : j ∈ l++k::r) (hne : j ≠ k) : j ∈ l++u::(m++r) := by
  simp only [mem_append,mem_cons] at hj ⊢
  tauto

theorem Formed.moveBlock_eq (h : Formed p n (l++f::r)) (hff : f.free = true)
    (hs : SplitFits t f.size a) (hk : k ∈ l++f::r) (hu : k.used = true)
    (hptr : blockFromPtr t ptr = k.addr) (heq : tlsfMalloc p a =
      (updateMinFree (Alloc.grant p f.addr a),some (ptrFromBlock t f.addr))) :
    k ∈ l++taken t f a::(rest t { f with free := false } a++r) ∧
    moveBlock p ptr a = if (taken t f a).size < k.size then none
      else some (tlsfFree (memcpy (updateMinFree (Alloc.grant p f.addr a)) (ptrFromBlock t f.addr)
        ptr k.size) (some ptr),some (ptrFromBlock t f.addr)) := by
  have hgrant : Formed (updateMinFree (Alloc.grant p f.addr a)) n
      (l++taken t f a::(rest t { f with free := false } a++r)) :=
    (h.grant hff hs).congr rfl rfl ⟨rfl,rfl,rfl⟩
  have hkf : k ≠ f := fun e => by
    rw [←e,h.not_free hk hu] at hff
    cases hff
  have hk' := mem_of_ne (u:=taken t f a) (m:=rest t { f with free := false } a) hk hkf
  have hnew := (hgrant.header_eq (k:=taken t f a) mem_mid).1
  rw [taken_addr] at hnew
  refine ⟨hk',?_⟩
  simp only [moveBlock,heq,blockFromPtr_ptrFromBlock,hptr,(hgrant.header_eq hk').1,hnew]

/-- A copy that fits, between a `tlsf_malloc` and a `tlsf_free`. -/
theorem Tracked.move (h : Tracked p) (hs : Sound p ks) (hk : k ∈ ks) (hu : k.used = true)
    (hq : blockFromPtr t q = k.addr) (hw : NoWrap t size) (hc : CopyFits p k (alignUp t size)) :
    ∃ m, moveBlock p q (alignUp t size) = some m ∧ Advances p m.1 := by
  have hmalloc := h.malloc hw.alignUp
  rcases hs.malloc_cases hw.alignUp with heq | ⟨l,f,r,rfl,hf,hfind,heq⟩
  · exact ⟨(p,none),by rw [moveBlock,heq],Advances.refl h⟩
  rw [alignUp_idem] at hfind heq
  obtain ⟨hkm,hmove⟩ := hs.formed.moveBlock_eq hf (splitFits_of_lt f.size hw) hk hu hq heq
  have hout := ((hs.grant hf hw).1).updateMinFree
  have hfits := hc f.addr hfind
  rw [hs.block f mem_mid,kept_size,←keptSize,←taken_size] at hfits
  rw [heq] at hmalloc
  refine ⟨_,by rw [hmove,if_neg (by omega)],hmalloc.trans ?_⟩
  have hcopy := hmalloc.tracked.memcpy (ptrFromBlock t f.addr) q k.size
  have howned : Owned (Alloc.memcpy (updateMinFree (Alloc.grant p f.addr (alignUp t size)))
      (ptrFromBlock t f.addr) q k.size) (some q) := by
    intro q' hq' _ _
    obtain rfl := Option.some.inj hq'
    rw [hq]
    exact hout.formed.chain_eq▸mem_map_of_mem hkm
  exact ⟨(hcopy.free howned).tracked,(hcopy.free howned).min_le⟩

theorem Formed.tlsfRealloc_eq (h : Formed p n ks) (hk : k ∈ ks)
    (hptr : blockFromPtr t ptr = k.addr) (hz : size ≠ 0) :
    tlsfRealloc p (some ptr) size = if needed t size ≤ k.size then
        some (Alloc.trim p k.addr (alignUp t size) (needed t size),some ptr)
      else match roomBehind p k.addr (needed t size) with
        | some next => some (Alloc.trim (absorb (blockRemoveFree p next) k.addr next) k.addr
          (alignUp t size) (needed t size),some ptr)
        | none => moveBlock p ptr (alignUp t size) := by
  simp only [tlsfRealloc,hz,if_false,hptr,h.signature hk,ne_eq,not_true_eq_false,
    (h.header_eq hk).1,needed]
  rfl

theorem roomBehind_nil (h : Represents p (l++[k])) (total : ℕ) :
    roomBehind p k.addr total = none := by
  rw [roomBehind,h.nextPhys_eq]
  rfl

theorem roomBehind_cons (h : Represents p (l++k::n::r)) (total : ℕ) :
    roomBehind p k.addr total =
      if n.free = true ∧ total ≤ k.size+t.blockOverhead+n.size then some n.addr else none := by
  have hn : n ∈ l++k::n::r := by simp
  have hsum : k.size+t.blockOverhead+n.size < t.word := by
    have hpair := h.pair_le
    have ht := h.fits.total_lt
    simp only [Block.span] at hpair
    omega
  rw [roomBehind,h.nextPhys_eq,head?_cons,Option.map_some,h.freeNeighbour_eq hn]
  by_cases hf : n.free = true
  · rw [if_pos hf,Option.filter_some,(h.header_eq (k:=k) mem_mid).1,(h.header_eq hn).1,
      Nat.mod_eq_of_lt hsum]
    simp [hf]
  · simp [hf]

section

variable (h : Tracked p)
include h

theorem Tracked.realloc (hsafe : Safe p (.realloc (some q) size)) : ∃ m, tlsfRealloc p (some q)
    size = some m ∧ Advances p m.1 := by
  obtain ⟨ks,hs⟩ := h.sound
  obtain ⟨hlive,hsafe⟩ := hsafe
  obtain ⟨k,hk,hq,hu⟩ := hs.formed.mem_live.mp (hlive q rfl)
  obtain ⟨l,r,rfl⟩ := append_of_mem hk
  rcases hsafe with rfl | ⟨hw,hsteady⟩
  · exact ⟨_,rfl,h.free (hs.owned_of_live hlive)⟩
  by_cases hz : size = 0
  · subst hz
    exact ⟨_,rfl,h.free (hs.owned_of_live hlive)⟩
  have htotal : (alignUp t size+t.blockOverhead)%t.word = alignUp t size+t.blockOverhead :=
    Nat.mod_eq_of_lt (by unfold NoWrap at hw; omega)
  have hnext : (p.headers k.addr).nextPhys.map (blockAt p) = r.head? := by
    rw [hs.nextPhys_eq]
    cases r with
    | nil => rfl
    | cons n r => exact congrArg some (hs.block n (by simp))
  rw [←hq,hs.block k hk,hnext] at hsteady
  rw [hs.formed.tlsfRealloc_eq hk hq.symm hz,needed,htotal]
  unfold Steady at hsteady
  by_cases hle : alignUp t size+t.blockOverhead ≤ k.size
  · rw [if_pos hle] at hsteady ⊢
    rw [Alloc.trim,(hs.header_eq (k:=k) mem_mid).1,Nat.mod_eq_of_lt hw,
      if_neg (show ¬_ ≤ _ from hsteady)]
    exact ⟨_,rfl,Advances.refl h⟩
  rw [if_neg hle] at hsteady ⊢
  cases r with
  | nil =>
    rw [roomBehind_nil hs.toRepresents]
    exact h.move hs hk hu hq.symm hw hsteady
  | cons n r =>
    rw [roomBehind_cons hs.toRepresents]
    rw [head?_cons] at hsteady
    by_cases hgrow : n.free = true ∧
        alignUp t size+t.blockOverhead ≤ k.size+t.blockOverhead+n.size
    · simp only [if_pos hgrow] at hsteady ⊢
      obtain ⟨hsize,hmin⟩ := hsteady
      obtain ⟨hs',hsame⟩ := hs.regrow hu hgrow.1 hmin (hsize▸hw)
      rw [hsize] at hs' hsame
      exact ⟨_,rfl,h.samePool hs' hsame⟩
    · simp only [if_neg hgrow] at hsteady ⊢
      exact h.move hs hk hu hq.symm hw hsteady

theorem Tracked.perform (hs : Safe p c) : ∃ q, perform p c = some q ∧ Advances p q := by
  cases c with
  | malloc size => exact ⟨_,rfl,h.malloc hs⟩
  | free ptr =>
    obtain ⟨ks,hks⟩ := h.sound
    exact ⟨_,rfl,h.free (hks.owned_of_live hs)⟩
  | realloc ptr size =>
    cases ptr with
    | none => exact ⟨_,rfl,h.malloc hs⟩
    | some q =>
      obtain ⟨m,hm,ha⟩ := h.realloc hs
      exact ⟨m.1,by rw [Alloc.perform,hm]; rfl,ha⟩

/-- The counters agree with the blocks. -/
structure Accounted (p : Pool t) : Prop where
  used : p.usedSize = usedBytes t (blocks p)
  balance : p.usedSize+tlsfPoolFreeSize p = p.totalSize

theorem Tracked.accounted : Accounted p := by
  obtain ⟨ks,hs⟩ := h.sound
  exact ⟨by rw [hs.formed.blocks_eq]; exact hs.counted,hs.balance⟩

/-- The counters are right, and no low-water mark is above what was free. -/
structure RunAccounted (qs : List (Pool t)) : Prop where
  accounted : ∀ q ∈ qs, Accounted q
  mark_now : ∀ q ∈ qs, q.minFree ≤ tlsfPoolFreeSize q
  mark_before : qs.Pairwise fun q q' => q'.minFree ≤ tlsfPoolFreeSize q

theorem Tracked.run (hs : SafeRun p cs) : ∃ qs, visited p cs = some qs ∧ RunAccounted qs ∧ ∀ q ∈
    qs, q.minFree ≤ p.minFree := by
  induction cs generalizing p with
  | nil =>
    refine ⟨[p],rfl,⟨?_,?_,pairwise_singleton _ _⟩,?_⟩ <;> simp [h.accounted,h.min_le]
  | cons c cs ih =>
    obtain ⟨q,hq,ha⟩ := h.perform hs.1
    obtain ⟨qs,hqs,hrun,hmin⟩ := ih ha.tracked (hs.2 q hq)
    refine ⟨p::qs,by simp [visited,hq,hqs],⟨?_,?_,?_⟩,?_⟩
    · exact forall_mem_cons.mpr ⟨h.accounted,hrun.accounted⟩
    · exact forall_mem_cons.mpr ⟨h.min_le,hrun.mark_now⟩
    · refine pairwise_cons.mpr ⟨fun s hs => ?_,hrun.mark_before⟩
      exact le_trans (hmin s hs) (le_trans ha.min_le h.min_le)
    · exact forall_mem_cons.mpr ⟨le_rfl,fun s hs => le_trans (hmin s hs) ha.min_le⟩

end

/-- In every run of safe calls on a pool that fits its size field, the counters are right. -/
theorem heap_accounted (mem : Buffer t) (hm : mem.size-t.poolOverhead < 2^32+t.blockOverhead)
    (p : Pool t) (hc : tlsfCreate (some mem) = some p) (cs : List Call) (hs : SafeRun p cs) :
    ∃ qs, visited p cs = some qs ∧ RunAccounted qs := by
  obtain ⟨hsound,hmin⟩ := sound_create hc hm
  have hb := hsound.balance
  have hu : p.usedSize = 0 := hsound.counted
  have htracked : Tracked p := ⟨⟨_,hsound⟩,by omega⟩
  obtain ⟨qs,hqs,hrun,-⟩ := htracked.run hs
  exact ⟨qs,hqs,hrun⟩

/-- Growing a block of 100 bytes into a free neighbour to 100 bytes again. -/
theorem heap_accounted_regrow :
    ∃ qs, visited smallPool [.malloc 100,.realloc (some 4448) 100,.free (some 4448)] = some qs ∧
      RunAccounted qs := by
  refine heap_accounted smallBuffer (by decide) smallPool tlsfCreate_smallBuffer _ ?_
  decide +kernel

/-- Shrinking a block in place: the bytes split off are free and still counted as used. -/
theorem realloc_shrink_miscounts :
    LivePtr (tlsfMalloc smallPool 400).1 (some 4448) ∧
      ∃ q, perform (tlsfMalloc smallPool 400).1 (.realloc (some 4448) 100) = some q ∧
        q.usedSize = 448 ∧ usedBytes .lp64 (blocks q) = 148 ∧ ¬Accounted q := by
  have hmap : (perform (tlsfMalloc smallPool 400).1 (.realloc (some 4448) 100)).map
      (fun q => (q.usedSize,usedBytes .lp64 (blocks q))) = some (448,148) := by decide +kernel
  obtain ⟨q,hq,hval⟩ := Option.map_eq_some_iff.mp hmap
  obtain ⟨hused,hbytes⟩ := Prod.mk.inj hval
  refine ⟨by decide +kernel,q,hq,hused,hbytes,fun h => ?_⟩
  have heq := h.used
  rw [hused,hbytes] at heq
  exact absurd heq (by decide)

end TinyDeviceOs.Alloc
