import TinyDeviceOs.AllocAccounting

/-! The pools that calls of the allocator lead to, as long as no header is written over another
one. -/
namespace TinyDeviceOs.Alloc

open List Option

variable {t : Target} {p q : Pool t} {l r ks : List Block} {k : Block} {a n size : ℕ}

theorem needed_alignUp : needed t (alignUp t size) = needed t size := by
  rw [needed,alignUp_idem,needed]

section

variable (h : Formed p n ks)
include h

theorem Formed.addr_inj (hj : j ∈ ks) (hk : k ∈ ks) (ha : j.addr = k.addr) :
    j = k := by
  rw [←h.block hj,ha,h.block hk]

theorem Formed.apart_of_ne (hj : j ∈ ks) (hk : k ∈ ks) (hne : j ≠ k) :
    j.addr+j.span t ≤ k.addr ∨ k.addr+k.span t ≤ j.addr := by
  obtain ⟨l,r,rfl⟩ := append_of_mem hk
  obtain ⟨hleft,hright⟩ := h.rep.tiles.around
  rcases mem_append.mp ((mem_middle.mp hj).resolve_left hne) with hj | hj
  · exact .inl (hleft j hj)
  · exact .inr (hright j hj)

/-- The block is cut without writing a header over another. -/
def RequestFits (p : Pool t) (size : ℕ) : Prop :=
  ∀ b ∈ findBlock p (needed t size), SplitFits t (p.headers b).size (alignUp t size)
  deriving Decidable

theorem Formed.malloc (hfits : RequestFits p size) :
    ∃ ks', Formed (tlsfMalloc p size).1 n ks' := by
  rcases tlsfMalloc_cases p size with ⟨-,heq⟩ | ⟨-,b,hb,heq⟩
  · exact ⟨ks,by rw [heq]; exact h⟩
  · obtain ⟨k,hk,rfl,hf⟩ := h.findBlock_free hb
    obtain ⟨l,r,rfl⟩ := append_of_mem hk
    have hs := hfits k.addr hb
    rw [(h.header_eq hk).1] at hs
    rw [heq]
    exact ⟨_,(h.grant hf hs).congr rfl rfl ⟨rfl,rfl,rfl⟩⟩

end

theorem Formed.free {ptr : Option ℕ} (h : Formed p n ks) (ho : Owned p ptr) :
    ∃ ks', Formed (tlsfFree p ptr) n ks' := by
  rcases tlsfFree_cases h.chain_eq (fun k hk => (h.header_eq hk).2.2) ho with
    heq | ⟨l,k,r,rfl,hk,heq⟩
  · exact ⟨ks,by rw [heq]; exact h⟩
  · obtain ⟨ks',hks',-⟩ := h.release hk
    exact ⟨ks',by rw [heq]; exact hks'⟩

section

variable {ptr : ℕ}

section

variable (p) (block size : ℕ)

def Stays : Prop :=
  needed t size ≤ (p.headers block).size ∨ (roomBehind p block (needed t size)).isSome
  deriving Decidable

/-- The size of the block that a resize offers to the split test. -/
def offered : Option ℕ :=
  if size = 0 then none
  else if needed t size ≤ (p.headers block).size then some (p.headers block).size
  else match roomBehind p block (needed t size) with
    | some next => some ((p.headers block).size+t.blockOverhead+(p.headers next).size)
    | none =>
      if alignUp t size = 0 then none
      else (findBlock p (needed t size)).map fun b => (p.headers b).size

/-- As `RequestFits`, for a resize. -/
def ResizeFits : Prop :=
  ∀ s ∈ offered p block size, SplitFits t s (alignUp t size)
  deriving Decidable

/-- The other used blocks are as they were, and so are the common bytes. -/
structure Resized (p q : Pool t) (n : ℕ) (ks : List Block) (k : Block) (ptr new : ℕ)
    (k' : Block) : Prop where
  formed : ∃ ks', Formed q n ks' ∧ k' ∈ ks' ∧ ∀ j ∈ ks, j.used = true → j ≠ k → j ∈ ks'
  addr : blockFromPtr t new = k'.addr
  content : ∀ i < min k.size k'.size, q.bytes (new+i) = p.bytes (ptr+i)
  others : ∀ j ∈ ks, j.used = true → j ≠ k → ∀ i < j.size,
    q.bytes (ptrFromBlock t j.addr+i) = p.bytes (ptrFromBlock t j.addr+i)

theorem memcpy_inside (hi : i < m) : (memcpy p dst src m).bytes (dst+i) = p.bytes (src+i) := by
  simp only [memcpy]
  rw [if_pos (by omega),Nat.add_sub_cancel_left]

end

theorem memcpy_outside (hb : b < dst ∨ dst+m ≤ b) : (memcpy p dst src m).bytes b = p.bytes b := by
  simp only [memcpy]
  rw [if_neg (by omega)]

section

variable (p)

theorem bytes_trim (b x y : ℕ) : (trim p b x y).bytes = p.bytes :=
  bytes_eq_of_over (f:=fun p => trim p b x y) (fun p n bytes => over_trim p n b x y bytes) p

theorem bytes_absorb (b x y : ℕ) : (absorb (blockRemoveFree p b) x y).bytes = p.bytes :=
  bytes_eq_of_over (f:=fun p => absorb (blockRemoveFree p b) x y)
    (fun p n bytes => by simp only [over_blockRemoveFree,over_absorb]) p

theorem bytes_grant (b a : ℕ) : (grant p b a).bytes = p.bytes :=
  bytes_eq_of_over (f:=fun p => grant p b a) (fun p n bytes => over_grant p n b a bytes) p

theorem bytes_release (b : ℕ) : (release p b).bytes = p.bytes :=
  bytes_eq_of_over (f:=fun p => release p b) (fun p n bytes => over_release p n b bytes) p

end

theorem Formed.resize_here (h : Formed p n (l++k::r)) (hu : k.used = true)
    (hptr : blockFromPtr t ptr = k.addr) (hs : SplitFits t k.size a) :
    Resized p (Alloc.trim p k.addr a ((a+t.blockOverhead)%t.word)) n (l++k::r) k ptr ptr
      (kept t k a) := by
  have hb := bytes_trim p k.addr a ((a+t.blockOverhead)%t.word)
  refine ⟨⟨_,h.trim hu hs,mem_mid,fun j hj _ hne => mem_of_ne hj hne⟩,?_,?_,?_⟩
  · rw [hptr,kept_addr]
  · exact fun i _ => congrFun hb _
  · exact fun j _ _ _ i _ => congrFun hb _

theorem Formed.resize_grow (h : Formed p n (l++k::j::r)) (hu : k.used = true)
    (hj : j.free = true) (hptr : blockFromPtr t ptr = k.addr)
    (hs : SplitFits t (k.size+t.blockOverhead+j.size) a) :
    Resized p (Alloc.trim (absorb (blockRemoveFree p j.addr) k.addr j.addr) k.addr a
      ((a+t.blockOverhead)%t.word)) n (l++k::j::r) k ptr ptr
      (kept t { k with size := k.size+t.blockOverhead+j.size } a) := by
  have hb := (bytes_trim (absorb (blockRemoveFree p j.addr) k.addr j.addr) k.addr a
    ((a+t.blockOverhead)%t.word)).trans (bytes_absorb p j.addr k.addr j.addr)
  have hju := h.not_used (by simp) hj
  have hgrow := (h.grow hu hj).trim (k:={ k with size := k.size+t.blockOverhead+j.size }) hu hs
  refine ⟨⟨_,hgrow,mem_mid,fun i hi hiu hne => ?_⟩,?_,?_,?_⟩
  · have hij : i ≠ j := fun e => by rw [e,hju] at hiu; cases hiu
    simp only [mem_append,mem_cons] at hi ⊢
    tauto
  · rw [hptr,kept_addr]
  · exact fun i _ => congrFun hb _
  · exact fun i _ _ _ m _ => congrFun hb _

theorem Formed.resize_move (h : Formed p n ks) (hk : k ∈ ks) (hu : k.used = true) (hf : f ∈ ks)
    (hff : f.free = true) (hs : SplitFits t f.size a) (hle : k.size ≤ (taken t f a).size) :
    Resized p (Alloc.release (memcpy (updateMinFree (Alloc.grant p f.addr a)) (ptrFromBlock t
    f.addr) ptr k.size) k.addr) n ks k ptr (ptrFromBlock t f.addr) (taken t f a) := by
  obtain ⟨l,r,rfl⟩ := append_of_mem hf
  have hne (j : Block) (hju : j.used = true) : j ≠ f := fun e => by
    rw [e,h.not_used hf hff] at hju
    cases hju
  have hgrant := h.grant hff hs
  have hcopy : Formed (memcpy (updateMinFree (Alloc.grant p f.addr a)) (ptrFromBlock t f.addr) ptr
      k.size) n (l++taken t f a::(rest t { f with free := false } a++r)) :=
    hgrant.congr rfl rfl ⟨rfl,rfl,rfl⟩
  have hstay (j : Block) (hj : j ∈ l++f::r) (hju : j.used = true) :
      j ∈ l++taken t f a::(rest t { f with free := false } a++r) := mem_of_ne hj (hne j hju)
  have htk : taken t f a ≠ k := fun e => hne k hu (h.addr_inj hk hf (by rw [←e,taken_addr]))
  obtain ⟨l₂,r₂,hsplit⟩ := append_of_mem (hstay k hk hu)
  rw [hsplit] at hcopy hstay
  obtain ⟨ks',hks',hfilter⟩ := hcopy.release hu
  have hkeep (j : Block) (hj : j ∈ l₂++k::r₂) (hju : j.used = true) (hjk : j ≠ k) : j ∈ ks' := by
    refine mem_of_mem_filter (p:=Block.used) ?_
    rw [hfilter,mem_filter]
    exact ⟨(mem_middle.mp hj).resolve_left hjk,hju⟩
  have htaken : taken t f a ∈ l₂++k::r₂ := hsplit▸mem_mid
  have hbytes := bytes_release (memcpy (updateMinFree (Alloc.grant p f.addr a))
    (ptrFromBlock t f.addr) ptr k.size) k.addr
  have hgrantb : (updateMinFree (Alloc.grant p f.addr a)).bytes = p.bytes := bytes_grant p f.addr a
  refine ⟨⟨ks',hks',hkeep _ htaken rfl htk,fun j hj hju hjk => hkeep j (hstay j hj hju) hju hjk⟩,
    ?_,?_,?_⟩
  · rw [blockFromPtr_ptrFromBlock,taken_addr]
  · intro i hi
    rw [hbytes,memcpy_inside _ (by omega),hgrantb]
  · intro j hj hju hjk i hi
    have hsize : (taken t f a).size ≤ f.size := by
      rw [taken_size,keptSize]
      split_ifs <;> omega
    have happart := h.apart_of_ne hj hf (hne j hju)
    simp only [Block.span] at happart
    rw [hbytes,memcpy_outside,hgrantb]
    simp only [ptrFromBlock]
    omega

theorem Formed.roomBehind_some {total next : ℕ} (h : Formed p n (l++k::r))
    (hr : roomBehind p k.addr total = some next) :
    ∃ j r', r = j::r' ∧ j.free = true ∧ next = j.addr := by
  cases r with
  | nil =>
    rw [show roomBehind p k.addr total = none from roomBehind_nil h.rep total] at hr
    exact absurd hr.symm (some_ne_none _)
  | cons j r' =>
    rw [show roomBehind p k.addr total = _ from roomBehind_cons h.rep total] at hr
    split_ifs at hr with hj
    exact ⟨j,r',rfl,hj.1,(some.inj hr).symm⟩

section

variable (h : Formed p n ks) (hk : k ∈ ks)
include h hk

theorem Formed.move_cases (hu : k.used = true) (hptr : blockFromPtr t ptr = k.addr) (hfits :
    alignUp t size ≠ 0 → RequestFits p size) : (alignUp t size = 0 ∨ findBlock p (needed t size)
    = none) ∧ moveBlock p ptr (alignUp t size) = some (p,none) ∨ alignUp t size ≠ 0 ∧ ∃ b new,
    findBlock p (needed t size) = some b ∧ (k.size ≤ keptSize t (p.headers b).size (alignUp t
    size) ∧ (∃ q k', moveBlock p ptr (alignUp t size) = some (q,some new) ∧ Resized p q n ks k
    ptr new k' ∧ k'.size = keptSize t (p.headers b).size (alignUp t size)) ∨ keptSize t
    (p.headers b).size (alignUp t size) < k.size ∧ moveBlock p ptr (alignUp t size) = none) := by
  rcases tlsfMalloc_cases p (alignUp t size) with ⟨hnone,heq⟩ | ⟨hz,b,hb,heq⟩
  · rw [needed_alignUp] at hnone
    exact .inl ⟨hnone,by simp only [moveBlock,heq]⟩
  rw [needed_alignUp] at hb
  rw [alignUp_idem] at heq
  refine .inr ⟨hz,b,ptrFromBlock t b,hb,?_⟩
  obtain ⟨f,hf,rfl,hff⟩ := h.findBlock_free hb
  have hs := hfits hz f.addr hb
  rw [(h.header_eq hf).1] at hs ⊢
  rw [←taken_size]
  generalize alignUp t size = a at *
  obtain ⟨l,r,rfl⟩ := append_of_mem hf
  obtain ⟨hk',hmove⟩ := h.moveBlock_eq hff hs hk hu hptr heq
  rcases lt_or_ge (taken t f a).size k.size with hlt | hle
  · exact .inr ⟨hlt,by rw [hmove,if_pos hlt]⟩
  · have hcopy : Formed (memcpy (updateMinFree (Alloc.grant p f.addr a)) (ptrFromBlock t f.addr) ptr
        k.size) n (l++taken t f a::(rest t { f with free := false } a++r)) :=
      (h.grant hff hs).congr rfl rfl ⟨rfl,rfl,rfl⟩
    refine .inl ⟨hle,_,_,?_,h.resize_move hk hu mem_mid hff hs hle,rfl⟩
    rw [hmove,if_neg (not_lt.mpr hle),hcopy.tlsfFree_eq hk' hu hptr]

/-- Everything that `tlsf_realloc` can do to a live block. -/
theorem Formed.realloc_cases (hu : k.used = true) (hptr : blockFromPtr t ptr = k.addr) (hfits :
    ResizeFits p k.addr size) : offered p k.addr size = none ∧ (∃ q ks', tlsfRealloc p (some
    ptr) size = some (q,none) ∧ Formed q n ks') ∨ ∃ s new, offered p k.addr size = some s ∧
    ((Stays p k.addr size ∨ k.size ≤ keptSize t s (alignUp t size)) ∧ (∃ q k', tlsfRealloc p
    (some ptr) size = some (q,some new) ∧ Resized p q n ks k ptr new k' ∧ k'.size = keptSize t s
    (alignUp t size)) ∨ ¬Stays p k.addr size ∧ keptSize t s (alignUp t size) < k.size ∧
    tlsfRealloc p (some ptr) size = none) := by
  obtain ⟨l,r,rfl⟩ := append_of_mem hk
  have hsize := (h.header_eq hk).1
  by_cases hz : size = 0
  · obtain ⟨ks',hks',-⟩ := h.release hu
    refine .inl ⟨by rw [offered,if_pos hz],_,ks',?_,hks'⟩
    rw [tlsfRealloc]
    simp only [hz,if_true,h.tlsfFree_eq hk hu hptr]
  rw [h.tlsfRealloc_eq hk hptr hz]
  have hoffer : offered p k.addr size = if needed t size ≤ k.size then some k.size
      else match roomBehind p k.addr (needed t size) with
        | some next => some (k.size+t.blockOverhead+(p.headers next).size)
        | none => if alignUp t size = 0 then none
          else (findBlock p (needed t size)).map fun b => (p.headers b).size := by
    rw [offered,if_neg hz,hsize]
  have hstays : Stays p k.addr size ↔
      needed t size ≤ k.size ∨ (roomBehind p k.addr (needed t size)).isSome := by
    rw [Stays,hsize]
  rw [ResizeFits,hoffer] at hfits
  rw [hoffer,hstays]
  by_cases hle : needed t size ≤ k.size
  · simp only [if_pos hle] at hfits ⊢
    exact .inr ⟨k.size,ptr,rfl,.inl ⟨.inl (.inl hle),_,_,rfl,
      h.resize_here hu hptr (hfits _ rfl),kept_size _ _⟩⟩
  simp only [if_neg hle] at hfits ⊢
  cases hroom : roomBehind p k.addr (needed t size) with
  | some next =>
    obtain ⟨j,r',rfl,hj,rfl⟩ := h.roomBehind_some hroom
    have hjsize := (h.header_eq (k:=j) (by simp)).1
    simp only [hroom,hjsize] at hfits ⊢
    exact .inr ⟨_,ptr,rfl,.inl ⟨.inl (.inr rfl),_,_,rfl,
      h.resize_grow hu hj hptr (hfits _ rfl),kept_size _ _⟩⟩
  | none =>
    simp only [hroom] at hfits ⊢
    have hreq : alignUp t size ≠ 0 → RequestFits p size := by
      intro ha b hb
      rw [if_neg ha,mem_def.mp hb] at hfits
      exact hfits _ rfl
    rcases h.move_cases hk hu hptr hreq with ⟨hnone,heq⟩ | ⟨ha,b,new,hb,hmove⟩
    · refine .inl ⟨?_,p,_,heq,h⟩
      rcases hnone with ha | hb
      · rw [if_pos ha]
      · rw [hb]
        split_ifs <;> rfl
    · refine .inr ⟨(p.headers b).size,new,by rw [if_neg ha,hb]; rfl,?_⟩
      rcases hmove with ⟨hfit,hq⟩ | ⟨hlt,heq⟩
      · exact .inl ⟨.inr hfit,hq⟩
      · exact .inr ⟨by simp [hle],hlt,heq⟩

end

end

/-- The calls that write no header over another one. -/
def Orderly (p : Pool t) : Call → Prop
  | .malloc size => RequestFits p size
  | .free ptr => Owned p ptr
  | .realloc none size => RequestFits p size
  | .realloc (some ptr) size => LivePtr p (some ptr) ∧ ResizeFits p (blockFromPtr t ptr) size

def padded (t : Target) (align size : ℕ) : ℕ :=
  (alignUp t size+2*alignUp t align+minBlockSize t)%t.word

/-- There is nothing to cut off in front. -/
def Plain (p : Pool t) (align size : ℕ) : Prop :=
  RequestFits p (padded t align size) ∧
    ∀ raw ∈ (tlsfMalloc p (padded t align size)).2, alignOffset t raw (alignUp t align) = 0

/-- Between the calls a program may write to its blocks. -/
inductive Reachable : Pool t → Prop
  | create {p : Pool t} (mem : Buffer t) : tlsfCreate (some mem) = some p → Reachable p
  | call {p q : Pool t} (c : Call) : Reachable p → Orderly p c → perform p c = some q → Reachable q
  | memalign {p q : Pool t} (align size : ℕ) (ptr : Option ℕ) : Reachable p → Plain p align size →
      tlsfMemalign p align size = some (q,ptr) → Reachable q
  | write {p : Pool t} (bytes : ℕ → UInt8) : Reachable p → Reachable { p with bytes := bytes }

theorem Formed.perform (h : Formed p n ks) (hc : Orderly p c) (hq : perform p c = some q) : ∃
    ks', Formed q n ks' := by
  cases c with
  | malloc size =>
    obtain rfl := some.inj hq
    exact h.malloc hc
  | free ptr =>
    obtain rfl := some.inj hq
    exact h.free hc
  | realloc ptr size =>
    obtain ⟨m,hm,rfl⟩ := map_eq_some_iff.mp hq
    cases ptr with
    | none =>
      obtain rfl := some.inj hm
      exact h.malloc hc
    | some ptr =>
      obtain ⟨hlive,hfits⟩ := hc
      obtain ⟨k,hk,hb,hu⟩ := h.mem_live.mp (hlive ptr rfl)
      rw [←hb] at hfits
      rcases h.realloc_cases hk hu hb.symm hfits with ⟨-,m',ks',heq,hks'⟩ | ⟨s,new,-,hcase⟩
      · obtain rfl := some.inj (hm.symm.trans heq)
        exact ⟨ks',hks'⟩
      · rcases hcase with ⟨-,m',k',heq,hres,-⟩ | ⟨-,-,heq⟩
        · obtain rfl := some.inj (hm.symm.trans heq)
          obtain ⟨ks',hks',-⟩ := hres.formed
          exact ⟨ks',hks'⟩
        · exact absurd (hm.symm.trans heq) (some_ne_none m)

theorem tlsfMemalign_eq (hz : size ≠ 0) (ha : align&&&wordSub t align 1 = 0)
    (hr : tlsfMalloc p (padded t align size) = res) :
    tlsfMemalign p align size = match res.2 with
      | none => some (res.1,none)
      | some raw => if alignOffset t raw (alignUp t align) = 0 then some (res.1,some raw)
        else recut res.1 (blockFromPtr t raw) (alignOffset t raw (alignUp t align))
          (alignUp t size) := by
  rw [tlsfMemalign,if_neg hz,if_neg (not_not.mpr ha),←hr]
  rfl

theorem tlsfMemalign_plain {align : ℕ} {ptr : Option ℕ} (hp : Plain p align size)
    (hq : tlsfMemalign p align size = some (q,ptr)) :
    q = p ∨ q = (tlsfMalloc p (padded t align size)).1 := by
  by_cases hz : size = 0
  · rw [tlsfMemalign,if_pos hz] at hq
    exact .inl (congrArg Prod.fst (some.inj hq)).symm
  by_cases ha : align&&&wordSub t align 1 = 0
  · rw [tlsfMemalign_eq hz ha rfl] at hq
    refine .inr ?_
    cases hm : (tlsfMalloc p (padded t align size)).2 with
    | none =>
      rw [hm] at hq
      exact (congrArg Prod.fst (some.inj hq)).symm
    | some raw =>
      rw [hm] at hq
      simp only [if_pos (hp.2 raw hm)] at hq
      exact (congrArg Prod.fst (some.inj hq)).symm
  · rw [tlsfMemalign,if_neg hz,if_pos ha] at hq
    exact .inl (congrArg Prod.fst (some.inj hq)).symm

/-- Every pool that a program gets to is in order. -/
theorem Reachable.formed (h : Reachable p) : ∃ n ks, Formed p n ks := by
  induction h with
  | create mem hc => exact ⟨_,_,formed_create hc⟩
  | call c _ hc hq ih =>
    obtain ⟨n,ks,hks⟩ := ih
    obtain ⟨ks',hks'⟩ := hks.perform hc hq
    exact ⟨n,ks',hks'⟩
  | memalign align size ptr _ hp hq ih =>
    obtain ⟨n,ks,hks⟩ := ih
    rcases tlsfMemalign_plain hp hq with rfl | rfl
    · exact ⟨n,ks,hks⟩
    · obtain ⟨ks',hks'⟩ := hks.malloc hp.1
      exact ⟨n,ks',hks'⟩
  | write bytes _ ih =>
    obtain ⟨n,ks,hks⟩ := ih
    exact ⟨n,ks,hks.congr rfl rfl ⟨rfl,rfl,rfl⟩⟩

section

variable {t : Target} {p q : Pool t} {ks : List Block} {k : Block} {n ptr size : ℕ}

/-- A live block keeps its header and its payload. -/
structure Untouched (p q : Pool t) (b : ℕ) : Prop where
  live : b ∈ live q
  block : blockAt q b = blockAt p b
  signature : (q.headers b).signature = (p.headers b).signature
  bytes : ∀ i < (p.headers b).size,
    q.bytes (ptrFromBlock t b+i) = p.bytes (ptrFromBlock t b+i)

/-- No header goes over another, the copy fits, and the kept bytes and other live blocks stay. -/
def ResizesSafely (p : Pool t) (ptr size : ℕ) : Prop :=
  ResizeFits p (blockFromPtr t ptr) size ∧
    ∃ q o, tlsfRealloc p (some ptr) size = some (q,o) ∧ ∀ new ∈ o,
      min (p.headers (blockFromPtr t ptr)).size size ≤ (q.headers (blockFromPtr t new)).size ∧
      (∀ i < min (p.headers (blockFromPtr t ptr)).size size, q.bytes (new+i) = p.bytes (ptr+i)) ∧
      ∀ b ∈ live p, b ≠ blockFromPtr t ptr → Untouched p q b

/-- Room for what is kept in place, or for the whole block that is copied. -/
def RoomForContents (p : Pool t) (block size : ℕ) : Prop :=
  ∀ s ∈ offered p block size,
    (if Stays p block size then min (p.headers block).size size else (p.headers block).size) ≤
      keptSize t s (alignUp t size)
  deriving Decidable

theorem Resized.untouched (hr : Resized p q n ks k ptr new k') (h : Formed p n ks) (hb : b ∈
    live p) (hne : b ≠ k.addr) : Untouched p q b := by
  obtain ⟨j,hj,rfl,hu⟩ := h.mem_live.mp hb
  have hjk : j ≠ k := fun e => hne (by rw [e])
  obtain ⟨ks',hks',-,hothers⟩ := hr.formed
  have hj' := hothers j hj hu hjk
  refine ⟨hks'.mem_live.mpr ⟨j,hj',rfl,hu⟩,?_,?_,?_⟩
  · rw [hks'.block hj',h.block hj]
  · rw [hks'.signature hj',h.signature hj]
  · rw [(h.header_eq hj).1]
    exact hr.others j hj hu hjk

def crowdedPool : Pool .lp64 := (tlsfMalloc (tlsfMalloc smallPool 132).1 100).1

theorem reachable_crowdedPool : Reachable crowdedPool := by
  have hfirst : Reachable (tlsfMalloc smallPool 132).1 :=
    (Reachable.create smallBuffer tlsfCreate_smallBuffer).call (.malloc 132)
      (show RequestFits _ _ by decide +kernel) rfl
  exact hfirst.call (.malloc 100) (show RequestFits _ _ by decide +kernel) rfl

end

end TinyDeviceOs.Alloc
