import Mathlib.Data.List.Nodup

/-! Lists that are threaded through one or two link fields of their nodes: the nodes in order, and
edits by what the link fields read afterwards. -/
namespace TinyDeviceOs.LinkedList

open List Option

variable {α : Type} {next prev next' prev' : α → Option α} {before head after : Option α}

section

variable {xs ys zs : List α} {head' : Option α} {fuel : ℕ}

def Path (next : α → Option α) : Option α → List α → Prop
  | head,[] => head = none
  | head,x::xs => head = some x ∧ Path next (next x) xs

section

variable (h : Path next head xs)
include h

theorem Path.head_eq : head = xs.head? := by
  cases xs with
  | nil => exact h
  | cons x xs => exact h.1

theorem Path.congr (hn : ∀ y ∈ xs, next' y = next y) : Path next' head xs := by
  induction xs generalizing head with
  | nil => exact h
  | cons x xs ih =>
    refine ⟨h.1,?_⟩
    rw [hn x mem_cons_self]
    exact ih h.2 fun y hy => hn y (mem_cons_of_mem x hy)

theorem Path.unique (h' : Path next head ys) : xs = ys := by
  induction xs generalizing head ys with
  | nil =>
    cases ys with
    | nil => rfl
    | cons y ys =>
      rw [Path] at h
      exact absurd (h'.1.symm.trans h) (some_ne_none y)
  | cons x xs ih =>
    cases ys with
    | nil =>
      rw [Path] at h'
      exact absurd (h.1.symm.trans h') (some_ne_none x)
    | cons y ys =>
      obtain rfl := some.inj (h.1.symm.trans h'.1)
      rw [ih h.2 h'.2]

end

/-- `none` is the address of the head, `some x` that of the link of `x`. -/
def deref (next : α → Option α) (head : Option α) : Option α → Option α
  | none => head
  | some x => next x

theorem Path.drop (h : Path next head (xs++ys)) : Path next (deref next head xs.getLast?) ys := by
  induction xs generalizing head with
  | nil => exact h
  | cons x xs ih =>
    have hrest := ih h.2
    cases xs with
    | nil => exact hrest
    | cons z zs =>
      rw [getLast?_cons_cons]
      rw [getLast?_cons] at hrest ⊢
      exact hrest

theorem Path.nodup (h : Path next head xs) : xs.Nodup := by
  induction xs generalizing head with
  | nil => exact nodup_nil
  | cons x xs ih =>
    refine nodup_cons.mpr ⟨fun hx => ?_,ih h.2⟩
    obtain ⟨l,r,rfl⟩ := append_of_mem hx
    have hlen := congrArg length (h.2.unique h.2.drop.2)
    simp at hlen
    omega

/-- Behind `xs` the list goes on with other nodes. -/
theorem Path.splice [DecidableEq α] (h : Path next head (xs++ys)) (mid : Option α)
    (hz : Path next' mid zs)
    (hhead : head' = if xs.getLast? = none then mid else head)
    (hn : ∀ y ∈ xs, next' y = if xs.getLast? = some y then mid else next y) :
    Path next' head' (xs++zs) := by
  have hd := (nodup_append.mp h.nodup).1
  subst hhead
  induction xs generalizing head with
  | nil => exact hz
  | cons x xs ih =>
    obtain ⟨rfl,h⟩ := h
    obtain ⟨hx,hd⟩ := nodup_cons.mp hd
    refine ⟨by simp,?_⟩
    have hlast : next' x = if xs.getLast? = none then mid else next x := by
      rw [hn x mem_cons_self]
      cases xs with
      | nil => simp
      | cons z zs =>
        have hne : (z::zs).getLast? ≠ some x := fun e => hx (mem_of_getLast? e)
        rw [getLast?_cons_cons,if_neg hne,if_neg (by simp)]
    rw [hlast]
    refine ih h (fun y hy => ?_) hd
    rw [hn y (mem_cons_of_mem x hy)]
    cases xs with
    | nil => exact absurd hy not_mem_nil
    | cons z zs => rw [getLast?_cons_cons]

theorem exists_fuel (hf : (x::xs).length ≤ fuel) : ∃ rest, fuel = rest+1 ∧ xs.length ≤ rest :=
  ⟨fuel-1,by rw [length_cons] at hf; omega,Nat.le_sub_one_of_lt hf⟩

/-- Up to the end or a node that meets `stop`. -/
def seek (next : α → Option α) (head : Option α) (stop : α → Bool) : ℕ → Option α → Option α
  | 0,slot => slot
  | fuel+1,slot => match deref next head slot with
    | none => slot
    | some x => if stop x then slot else seek next head stop fuel (some x)

theorem Path.seek_eq (h : Path next head (xs++ys)) (stop : α → Bool) (hf : ys.length ≤ fuel) :
    seek next head stop fuel xs.getLast? = (xs++ys.takeWhile fun x => !stop x).getLast? := by
  induction ys generalizing xs fuel with
  | nil =>
    have hread : deref next head xs.getLast? = none := h.drop
    cases fuel with
    | zero => simp [seek]
    | succ fuel => simp [seek,hread]
  | cons y ys ih =>
    obtain ⟨fuel,rfl,hle⟩ := exists_fuel hf
    have hread : deref next head xs.getLast? = some y := h.drop.1
    rw [seek,hread]
    cases hstop : stop y with
    | true => simp [hstop]
    | false =>
      have hpath : Path next head ((xs++[y])++ys) := by simpa using h
      have hrest := ih hpath hle
      simpa [hstop] using hrest

end

/-- From `head` up to `after`; the first points back to `before`. -/
def Segment (next prev : α → Option α) : Option α → Option α → List α → Option α → Prop
  | _,head,[],after => head = after
  | before,head,x::xs,after =>
    head = some x ∧ prev x = before ∧ Segment next prev (some x) (next x) xs after

def Linked (next prev : α → Option α) (head : Option α) (xs : List α) : Prop :=
  Segment next prev none head xs none

/-- The node that the next one points back to. -/
def lastOr : Option α → List α → Option α
  | before,[] => before
  | _,x::xs => lastOr (some x) xs

@[simp] theorem lastOr_append_singleton (before : Option α) (xs : List α) : lastOr before
    (xs++[x]) = some x := by
  induction xs generalizing before with
  | nil => rfl
  | cons y xs ih => exact ih (some y)

variable {xs : List α}

theorem lastOr_mem (h : lastOr before xs = some y) : before = some y ∨ y ∈ xs := by
  induction xs generalizing before with
  | nil => exact .inl h
  | cons x xs ih =>
    rcases ih h with hx | hx
    · exact .inr (some.inj hx▸mem_cons_self)
    · exact .inr (mem_cons_of_mem x hx)

theorem segment_append : Segment next prev before head (xs++ys) after ↔ ∃ mid, Segment next prev
    before head xs mid ∧ Segment next prev (lastOr before xs) mid ys after := by
  induction xs generalizing before head with
  | nil => simp [Segment,lastOr]
  | cons x xs ih =>
    simp only [cons_append,Segment,ih,lastOr]
    constructor
    · rintro ⟨hh,hp,mid,hl,hr⟩
      exact ⟨mid,⟨hh,hp,hl⟩,hr⟩
    · rintro ⟨mid,⟨hh,hp,hl⟩,hr⟩
      exact ⟨hh,hp,mid,hl,hr⟩

theorem linked_split : Linked next prev head (xs++x::ys) ↔ Segment next prev none head xs (some
    x) ∧ prev x = lastOr none xs ∧ Segment next prev (some x) (next x) ys none := by
  rw [Linked,segment_append]
  constructor
  · rintro ⟨mid,hl,rfl,hp,hr⟩
    exact ⟨hl,hp,hr⟩
  · rintro ⟨hl,hp,hr⟩
    exact ⟨_,hl,rfl,hp,hr⟩

theorem Segment.congr (h : Segment next prev before head xs after)
    (hn : ∀ y ∈ xs, next' y = next y) (hp : ∀ y ∈ xs, prev' y = prev y) :
    Segment next' prev' before head xs after := by
  induction xs generalizing before head with
  | nil => exact h
  | cons x xs ih =>
    obtain ⟨hh,hb,ht⟩ := h
    refine ⟨hh,by rw [hp x mem_cons_self,hb],?_⟩
    rw [hn x mem_cons_self]
    exact ih ht (fun y hy => hn y (mem_cons_of_mem x hy))
      (fun y hy => hp y (mem_cons_of_mem x hy))

theorem Segment.path (h : Segment next prev before head xs none) :
    Path next head xs := by
  induction xs generalizing before head with
  | nil => exact h
  | cons x xs ih => exact ⟨h.1,ih h.2.2⟩

theorem Segment.nodup (h : Segment next prev before head xs none) : xs.Nodup :=
  h.path.nodup

theorem Segment.rebase {before' : Option α} [DecidableEq α]
    (h : Segment next prev before head xs after) (hd : xs.Nodup)
    (hn : ∀ y ∈ xs, next' y = next y)
    (hp : ∀ y ∈ xs, prev' y = if head = some y then before' else prev y) :
    Segment next' prev' before' head xs after := by
  cases xs with
  | nil => exact h
  | cons x xs =>
    obtain ⟨rfl,-,ht⟩ := h
    refine ⟨rfl,by rw [hp x mem_cons_self,if_pos rfl],?_⟩
    rw [hn x mem_cons_self]
    refine ht.congr (fun y hy => hn y (mem_cons_of_mem x hy)) (fun y hy => ?_)
    have hne : some x ≠ some y := fun hxy => (nodup_cons.mp hd).1 (some.inj hxy▸hy)
    rw [hp y (mem_cons_of_mem x hy),if_neg hne]

theorem Segment.retarget {after' : Option α} [DecidableEq α]
    (h : Segment next prev before head xs after) (hd : xs.Nodup)
    (hn : ∀ y ∈ xs, next' y = if lastOr before xs = some y then after' else next y)
    (hp : ∀ y ∈ xs, prev' y = prev y) :
    Segment next' prev' before (if xs = [] then after' else head) xs after' := by
  induction xs generalizing before head with
  | nil => rfl
  | cons x xs ih =>
    obtain ⟨rfl,hb,ht⟩ := h
    obtain ⟨hx,hd⟩ := nodup_cons.mp hd
    have hrest := ih ht hd (fun y hy => hn y (mem_cons_of_mem x hy))
      (fun y hy => hp y (mem_cons_of_mem x hy))
    refine ⟨rfl,by rw [hp x mem_cons_self,hb],?_⟩
    rw [hn x mem_cons_self]
    cases xs with
    | nil => simpa [lastOr] using hrest
    | cons z xs =>
      have hne : lastOr (some z) xs ≠ some x := by
        intro hl
        rcases lastOr_mem hl with hz | hz
        · exact hx (some.inj hz▸mem_cons_self)
        · exact hx (mem_cons_of_mem z hz)
      simpa [lastOr,hne] using hrest

theorem Linked.congr (h : Linked next prev head xs) (hn : ∀ y ∈ xs, next' y = next y)
    (hp : ∀ y ∈ xs, prev' y = prev y) : Linked next' prev' head xs :=
  Segment.congr h hn hp

theorem lastOr_some_ne_none (x : α) (xs : List α) : lastOr (some x) xs ≠ none := by
  induction xs generalizing x with
  | nil => exact some_ne_none x
  | cons y xs ih => exact ih y

section

variable {xs ys : List α} {x y : α}

theorem Linked.head_eq (h : Linked next prev head xs) : head = xs.head? :=
  (Segment.path h).head_eq

theorem Linked.head_mem (h : Linked next prev head xs) (hx : head = some x) : x ∈ xs :=
  mem_of_mem_head? (h.head_eq.symm.trans hx)

section

variable (h : Linked next prev head (xs++x::ys))
include h

theorem Linked.prev_none_iff : prev x = none ↔ xs = [] := by
  rw [(linked_split.mp h).2.1]
  cases xs with
  | nil => simp [lastOr]
  | cons z zs => simpa [lastOr] using lastOr_some_ne_none z zs

theorem Linked.prev_mem (hy : prev x = some y) : y ∈ xs := by
  rw [(linked_split.mp h).2.1] at hy
  exact (lastOr_mem hy).resolve_left (by simp)

theorem Linked.next_eq : next x = ys.head? := (linked_split.mp h).2.2.path.head_eq

theorem Linked.next_mem (hy : next x = some y) : y ∈ ys := by
  rw [h.next_eq] at hy
  exact mem_of_mem_head? hy

theorem Linked.next_prev (hy : prev x = some y) :
    next y = some x := by
  rcases xs.eq_nil_or_concat with rfl | ⟨zs,z,rfl⟩
  · exact absurd (h.prev_mem hy) not_mem_nil
  · rw [concat_eq_append] at h
    rw [(linked_split.mp h).2.1,lastOr_append_singleton] at hy
    obtain rfl := some.inj hy
    rw [append_assoc] at h
    exact h.next_eq

end

variable [DecidableEq α]

theorem Linked.push (h : Linked next prev head xs) (hx : next' x = head) (hx' : prev' x = none)
    (hn : ∀ y ∈ xs, next' y = next y)
    (hp : ∀ y ∈ xs, prev' y = if head = some y then some x else prev y) :
    Linked next' prev' (some x) (x::xs) :=
  ⟨rfl,hx',hx▸Segment.rebase h h.nodup hn hp⟩

/-- A node is taken out: its neighbours point to each other. -/
theorem Linked.remove (h : Linked next prev head (xs++x::ys))
    (hn : ∀ y ∈ xs++ys, next' y = if prev x = some y then next x else next y)
    (hp : ∀ y ∈ xs++ys, prev' y = if next x = some y then prev x else prev y) :
    Linked next' prev' (if prev x = none then next x else head) (xs++ys) := by
  obtain ⟨hl,hx,hr⟩ := linked_split.mp h
  obtain ⟨hdl,hdr,hdis⟩ := nodup_append.mp h.nodup
  have hdr := (nodup_cons.mp hdr).2
  simp only [h.prev_none_iff,Linked,segment_append]
  refine ⟨next x,?_,?_⟩
  · refine hl.retarget hdl (fun y hy => ?_) (fun y hy => ?_)
    · rw [hn y (mem_append_left ys hy),hx]
    · rw [hp y (mem_append_left ys hy),if_neg]
      exact fun hy' => hdis y hy y (mem_cons_of_mem x (h.next_mem hy')) rfl
  · refine hr.rebase hdr (fun y hy => ?_) (fun y hy => ?_)
    · rw [hn y (mem_append_right xs hy),if_neg]
      exact fun hy' => hdis y (h.prev_mem hy') y (mem_cons_of_mem x hy) rfl
    · rw [hp y (mem_append_right xs hy),hx]

theorem Linked.insertAfter (h : Linked next prev head (xs++x::ys)) (hz : next' z = next x) (hz' :
    prev' z = some x) (hn : ∀ y ∈ xs++x::ys, next' y = if x = y then some z else next y) (hp :
    ∀ y ∈ xs++x::ys, prev' y = if next x = some y then some z else prev y) : Linked next' prev'
    head (xs++x::z::ys) := by
  obtain ⟨hl,hx,hr⟩ := linked_split.mp h
  obtain ⟨-,hdr,hdis⟩ := nodup_append.mp h.nodup
  obtain ⟨hxr,hdr⟩ := nodup_cons.mp hdr
  have hxm : x ∈ xs++x::ys := mem_append_right xs mem_cons_self
  have hym {y : α} (hy : y ∈ ys) : y ∈ xs++x::ys :=
    mem_append_right xs (mem_cons_of_mem x hy)
  refine linked_split.mpr ⟨?_,?_,?_⟩
  · refine hl.congr (fun y hy => ?_) (fun y hy => ?_)
    · rw [hn y (mem_append_left _ hy),if_neg]
      exact fun hxy => hdis y hy x mem_cons_self hxy.symm
    · rw [hp y (mem_append_left _ hy),if_neg]
      exact fun hy' => hdis y hy y (mem_cons_of_mem x (h.next_mem hy')) rfl
  · rw [hp x hxm,if_neg (fun hx' => hxr (h.next_mem hx')),hx]
  · refine ⟨by rw [hn x hxm,if_pos rfl],hz',?_⟩
    rw [hz]
    refine hr.rebase hdr (fun y hy => ?_) (fun y hy => hp y (hym hy))
    have hne : x ≠ y := fun hxy => hxr (hxy▸hy)
    rw [hn y (hym hy),if_neg hne]

end

section

variable {xs : List α} {x y : α} {fuel : ℕ}

theorem Path.next_mem (h : Path next head xs) (hx : x ∈ xs) (hy : next x = some y) : y ∈ xs := by
  induction xs generalizing head with
  | nil => exact absurd hx not_mem_nil
  | cons z xs ih =>
    obtain ⟨-,hp⟩ := h
    rcases mem_cons.mp hx with rfl | hx
    · cases xs with
      | nil => exact absurd (hy.symm.trans hp) (some_ne_none y)
      | cons w xs =>
        obtain rfl := some.inj (hy.symm.trans hp.1)
        exact mem_cons_of_mem x mem_cons_self
    · exact mem_cons_of_mem z (ih hp hx)

/-- In at most `fuel` rounds. -/
def walk (next : α → Option α) : ℕ → Option α → List α
  | 0,_ => []
  | _+1,none => []
  | fuel+1,some x => x::walk next fuel (next x)

theorem Path.walk_eq (h : Path next head xs) (hf : xs.length ≤ fuel) :
    walk next fuel head = xs := by
  induction xs generalizing head fuel with
  | nil =>
    rw [Path] at h
    subst h
    cases fuel <;> rfl
  | cons x xs ih =>
    obtain ⟨rfl,ht⟩ := h
    obtain ⟨fuel,rfl,hle⟩ := exists_fuel hf
    rw [walk,ih ht hle]

theorem Path.mem_walk (h : Path next head (l++x::r)) (hn : ∀ y ∈ l, next' y = next y) (hf :
    l.length < fuel) : x ∈ walk next' fuel head := by
  induction l generalizing head fuel with
  | nil =>
    obtain ⟨m,rfl⟩ := Nat.exists_eq_succ_of_ne_zero (Nat.ne_zero_of_lt hf)
    rw [h.1]
    exact mem_cons_self
  | cons y l ih =>
    obtain ⟨m,rfl⟩ := Nat.exists_eq_succ_of_ne_zero (Nat.ne_zero_of_lt hf)
    rw [h.1,walk,hn y mem_cons_self]
    refine mem_cons_of_mem _ (ih h.2 (fun z hz => hn z (mem_cons_of_mem _ hz)) ?_)
    rw [length_cons] at hf
    omega

theorem Segment.walk_eq (h : Segment next prev before head xs none) (hf : xs.length ≤ fuel) :
    walk next fuel head = xs :=
  h.path.walk_eq hf

variable {σ : Type} {succ : σ → α → Option α} {body : σ → α → σ}

/-- The body may take the node off the list. -/
def forEach (succ : σ → α → Option α) (body : σ → α → σ) : ℕ → σ → Option α → σ
  | 0,s,_ => s
  | _+1,s,none => s
  | fuel+1,s,some x => forEach succ body fuel (body s x) (succ s x)

/-- The body runs once at every node, if it leaves the links to come. -/
theorem forEach_eq_foldl (inv : σ → List α → Prop) (hbody : ∀ s x xs, inv s (x::xs) → Path (succ
    s) (some x) (x::xs) → (x::xs).Nodup → inv (body s x) xs ∧ ∀ y ∈ xs, succ (body s x) y = succ
    s y) (hinv : inv s xs) (hp : Path (succ s) head xs) (hd : xs.Nodup) (hf : xs.length ≤ fuel) :
    forEach succ body fuel s head = xs.foldl body s ∧ inv (xs.foldl body s) [] := by
  induction xs generalizing s head fuel with
  | nil =>
    rw [Path] at hp
    subst hp
    exact ⟨by cases fuel <;> rfl,hinv⟩
  | cons x xs ih =>
    obtain ⟨rfl,ht⟩ := hp
    obtain ⟨fuel,rfl,hle⟩ := exists_fuel hf
    obtain ⟨hinv',hsucc⟩ := hbody s x xs hinv ⟨rfl,ht⟩ hd
    rw [forEach,foldl_cons]
    exact ih hinv' (ht.congr hsucc) (nodup_cons.mp hd).2 hle

end

section

variable {ι : Type} {heads heads' : ι → Option α} {place place' : α → Option ι} {x : α} {i : ι}

/-- Over the same links; each node is once on the list of its `place`. -/
def Family (next prev : α → Option α) (heads : ι → Option α) (place : α → Option ι) : Prop :=
  ∀ i, ∃ xs, Linked next prev (heads i) xs ∧ ∀ x, x ∈ xs ↔ place x = some i

section

variable (h : Family next prev heads place)
include h

theorem Family.head_place (hx : heads i = some x) :
    place x = some i := by
  obtain ⟨xs,hl,hm⟩ := h i
  exact (hm x).mp (hl.head_mem hx)

theorem Family.congr (hn : ∀ y, next' y = next y)
    (hp : ∀ y, prev' y = prev y) (hh : ∀ j, heads' j = heads j) (hpl : ∀ y, place' y = place y) :
    Family next' prev' heads' place' := by
  intro i
  obtain ⟨xs,hl,hm⟩ := h i
  refine ⟨xs,?_,fun y => by rw [hm,hpl]⟩
  rw [hh]
  exact hl.congr (fun y _ => hn y) (fun y _ => hp y)

theorem Family.neighbours (hx : place x = some i) (hy : next x = some y ∨ prev x = some y) : x ≠
    y ∧ place y = some i := by
  obtain ⟨xs,hl,hm⟩ := h i
  obtain ⟨l,r,rfl⟩ := append_of_mem ((hm x).mpr hx)
  obtain ⟨-,hdr,hdis⟩ := nodup_append.mp hl.nodup
  rcases hy with hy | hy
  · have hmem := hl.next_mem hy
    refine ⟨?_,(hm y).mp (mem_append_right l (mem_cons_of_mem x hmem))⟩
    rintro rfl
    exact (nodup_cons.mp hdr).1 hmem
  · have hmem := hl.prev_mem hy
    refine ⟨?_,(hm y).mp (mem_append_left _ hmem)⟩
    rintro rfl
    exact hdis x hmem x mem_cons_self rfl

theorem Family.next_prev (hx : place x = some i) (hy : prev x = some y) : next y = some x := by
  obtain ⟨xs,hl,hm⟩ := h i
  obtain ⟨l,r,rfl⟩ := append_of_mem ((hm x).mpr hx)
  exact hl.next_prev hy

end

variable [DecidableEq α] [DecidableEq ι]

theorem Family.push (h : Family next prev heads place) (hx : place x = none)
    (hn : ∀ y, next' y = if x = y then heads i else next y)
    (hp : ∀ y, prev' y = if heads i = some y then some x else if x = y then none else prev y)
    (hh : ∀ j, heads' j = if i = j then some x else heads j)
    (hpl : ∀ y, place' y = if x = y then some i else place y) :
    Family next' prev' heads' place' := by
  intro j
  obtain ⟨xs,hl,hm⟩ := h j
  have hne {y : α} (hy : y ∈ xs) : x ≠ y := by
    rintro rfl
    exact absurd ((hm x).mp hy) (by simp [hx])
  by_cases hij : i = j
  · subst hij
    refine ⟨x::xs,?_,?_⟩
    · have hhead : heads i ≠ some x := fun e => absurd (h.head_place e) (by simp [hx])
      rw [hh,if_pos rfl]
      refine hl.push ?_ ?_ ?_ ?_
      · rw [hn,if_pos rfl]
      · rw [hp,if_neg hhead,if_pos rfl]
      · intro y hy
        rw [hn,if_neg (hne hy)]
      · intro y hy
        rw [hp,if_neg (hne hy)]
    · intro y
      rw [mem_cons,hm,hpl]
      by_cases hxy : x = y
      · simp [hxy]
      · simp [hxy,Ne.symm hxy]
  · refine ⟨xs,?_,?_⟩
    · rw [hh,if_neg hij]
      refine hl.congr ?_ ?_
      · intro y hy
        rw [hn,if_neg (hne hy)]
      · intro y hy
        have hhead : heads i ≠ some y := fun e =>
          hij (some.inj ((h.head_place e).symm.trans ((hm y).mp hy)))
        rw [hp,if_neg hhead,if_neg (hne hy)]
    · intro y
      rw [hm,hpl]
      by_cases hxy : x = y
      · subst hxy
        simp [hx,hij]
      · simp [hxy]

theorem Family.remove (h : Family next prev heads place) (hx : place x = some i)
    (hn : ∀ y, x ≠ y → next' y = if prev x = some y then next x else next y)
    (hp : ∀ y, x ≠ y → prev' y = if next x = some y then prev x else prev y)
    (hh : ∀ j, heads' j = if i = j ∧ prev x = none then next x else heads j)
    (hpl : ∀ y, place' y = if x = y then none else place y) :
    Family next' prev' heads' place' := by
  intro j
  obtain ⟨xs,hl,hm⟩ := h j
  by_cases hij : i = j
  · subst hij
    obtain ⟨l,r,rfl⟩ := append_of_mem ((hm x).mpr hx)
    have hxn : x ∉ l++r := (nodup_cons.mp (nodup_middle.mp hl.nodup)).1
    have hne {y : α} (hy : y ∈ l++r) : x ≠ y := fun e => hxn (e▸hy)
    refine ⟨l++r,?_,?_⟩
    · rw [hh]
      simp only [true_and]
      exact hl.remove (fun y hy => hn y (hne hy)) (fun y hy => hp y (hne hy))
    · intro y
      rw [hpl]
      by_cases hxy : x = y
      · subst hxy
        simpa using hxn
      · rw [if_neg hxy,←hm]
        simp [Ne.symm hxy]
  · have hne {y : α} (hy : y ∈ xs) : x ≠ y := by
      rintro rfl
      exact hij (some.inj (hx.symm.trans ((hm x).mp hy)))
    have hother {y : α} (hy : y ∈ xs) (e : next x = some y ∨ prev x = some y) : False :=
      hij (some.inj ((h.neighbours hx e).2.symm.trans ((hm y).mp hy)))
    refine ⟨xs,?_,?_⟩
    · rw [hh,if_neg (fun e => hij e.1)]
      refine hl.congr ?_ ?_
      · intro y hy
        rw [hn y (hne hy),if_neg (fun e => hother hy (.inr e))]
      · intro y hy
        rw [hp y (hne hy),if_neg (fun e => hother hy (.inl e))]
    · intro y
      rw [hm,hpl]
      by_cases hxy : x = y
      · subst hxy
        simp [hx,hij]
      · simp [hxy]

end

end TinyDeviceOs.LinkedList
