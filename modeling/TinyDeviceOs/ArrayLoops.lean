import Mathlib.Data.List.GetD
import Mathlib.Tactic

/-! Loops that rewrite an array in place, and the search for the largest element. -/
namespace TinyDeviceOs.ArrayLoops

open List

variable {α : Type}

theorem modify_eq_set (f : α → α) (d : α) (xs : List α) (j : ℕ) :
    xs.modify j f = xs.set j (f (xs.getD j d)) := by
  induction xs generalizing j with
  | nil => cases j <;> rfl
  | cons x xs ih =>
    cases j with
    | zero => rfl
    | succ j => exact congrArg (x::·) (ih j)

theorem modify_eq_self {f : α → α} {d : α} {xs : List α} {j : ℕ}
    (h : f (xs.getD j d) = xs.getD j d) : xs.modify j f = xs := by
  induction xs generalizing j with
  | nil => cases j <;> rfl
  | cons x xs ih =>
    cases j with
    | zero => exact congrArg (·::xs) h
    | succ j => exact congrArg (x::·) (ih h)

theorem getElem?_foldl_modify (f : ℕ → α → α) (n : ℕ) (xs : List α) (j : ℕ) :
    ((range n).foldl (fun xs i => xs.modify i (f i)) xs)[j]? =
      xs[j]?.map fun x => if j < n then f j x else x := by
  induction n with
  | zero => simp
  | succ n ih =>
    rw [range_succ,foldl_append,foldl_cons,foldl_nil,getElem?_modify,ih]
    cases xs[j]? with
    | none => rfl
    | some x =>
      simp only [Option.map_some,Option.map_eq_map,Option.some.injEq]
      by_cases hj : n = j
      · subst hj
        simp
      · have hlt : j < n+1 ↔ j < n := by omega
        simp only [hj,hlt,if_false]

theorem foldl_modify (f : ℕ → α → α) (xs : List α) :
    (range xs.length).foldl (fun xs i => xs.modify i (f i)) xs = xs.mapIdx f := by
  apply ext_getElem?
  intro j
  rw [getElem?_foldl_modify,getElem?_mapIdx]
  by_cases hj : j < xs.length
  · simp [hj]
  · rw [getElem?_eq_none (not_lt.mp hj)]
    rfl

theorem foldl_range_getD {β : Type} (f : β → α → β) (d : α) (xs : List α) (b : β) :
    (range xs.length).foldl (fun b i => f b (xs.getD i d)) b = xs.foldl f b := by
  induction xs using reverseRecOn generalizing b with
  | nil => rfl
  | append_singleton xs x ih =>
    rw [length_append,length_singleton,range_succ,foldl_append,
      foldl_append,foldl_cons,foldl_nil,foldl_cons,foldl_nil,
      getD_append_right _ _ _ _ (le_refl _),Nat.sub_self,getD_cons_zero,←ih]
    congr 1
    apply foldl_ext
    intro b i hi
    rw [getD_append _ _ _ _ (mem_range.mp hi)]

/-- A loop that changes each place by itself and adds to its output. -/
theorem foldl_update {ι β : Type} [DecidableEq ι] (f : ι → α → α) (out : ι → α → List β)
    {is : List ι} (h : is.Nodup) (g : ι → α) (acc : List β) :
    is.foldl (fun st i => (Function.update st.1 i (f i (st.1 i)),st.2++out i (st.1 i))) (g,acc) =
      (fun i => if i ∈ is then f i (g i) else g i,acc++is.flatMap fun i => out i (g i)) := by
  induction is generalizing g acc with
  | nil => simp
  | cons i is ih =>
    have hne : ∀ {j}, j ∈ is → j ≠ i := fun hj heq => (nodup_cons.mp h).1 (heq▸hj)
    rw [foldl_cons,ih (nodup_cons.mp h).2]
    refine Prod.ext ?_ ?_
    · funext j
      by_cases hj : j = i
      · subst hj
        simp [(nodup_cons.mp h).1]
      · simp [hj]
    · have hrest : (is.flatMap fun j => out j (Function.update g i (f i (g i)) j)) =
          is.flatMap fun j => out j (g j) := by
        refine flatMap_congr fun j hj => ?_
        rw [Function.update_of_ne (hne hj)]
      simp [hrest]

/-- From the last position down to the second, reading the one below. -/
def shiftLoop {α : Type} (f : α → α → α) (d : α) (n : ℕ) (xs : List α) : List α :=
  (range' 1 n).reverse.foldl (fun v i => v.set i (f (v.getD i d) (v.getD (i-1) d))) xs

section

variable {α : Type} (f : α → α → α) (d : α)

theorem shiftLoop_succ : shiftLoop f d (n+1) xs = shiftLoop f d n (xs.set (n+1) (f (xs.getD
    (n+1) d) (xs.getD n d))) := by
  rw [shiftLoop,range'_concat,reverse_append,foldl_append,one_mul,
    add_comm 1 n]
  rfl

theorem shiftLoop_length (n : ℕ) (xs : List α) : (shiftLoop f d n xs).length = xs.length := by
  induction n generalizing xs with
  | zero => rfl
  | succ n ih => rw [shiftLoop_succ,ih,length_set]

theorem getD_set (xs : List α) (i j : ℕ) (x : α) (hi : i < xs.length) :
    (xs.set i x).getD j d = if i = j then x else xs.getD j d := by
  rw [getD_eq_getElem?_getD,getElem?_set,getD_eq_getElem?_getD]
  by_cases hij : i = j
  · simp [hij,hij ▸ hi]
  · simp [hij]

/-- Going down, the pass reads only old values. -/
theorem shiftLoop_getD (n j : ℕ) (xs : List α) (h : n < xs.length) :
    (shiftLoop f d n xs).getD j d =
      if j ≠ 0 ∧ j ≤ n then f (xs.getD j d) (xs.getD (j-1) d) else xs.getD j d := by
  induction n generalizing xs with
  | zero =>
    rw [if_neg (by omega)]
    rfl
  | succ n ih =>
    rw [shiftLoop_succ,ih _ (by rw [length_set]; omega)]
    simp only [getD_set d xs (n+1) _ _ h]
    by_cases hj : j = n+1
    · subst hj
      simp
    · have hle : j ≤ n+1 ↔ j ≤ n := by omega
      simp only [hle,Ne.symm hj,if_false]
      by_cases hjn : j ≠ 0 ∧ j ≤ n
      · rw [if_pos hjn,if_pos hjn,if_neg (by omega)]
      · rw [if_neg hjn,if_neg hjn]

end

section

variable {α : Type} (d : α)

/-- From `j` up over `n` positions, each taking the one above. -/
def closeGap (j n : ℕ) (xs : List α) : List α :=
  (range' j n).foldl (fun v i => v.set i (v.getD (i+1) d)) xs

/-- What follows moves down by one; a copy of the last stays behind. -/
theorem closeGap_append (x : α) (front rest back : List α) :
    ∃ y, closeGap d front.length rest.length (front++x::(rest++back)) = front++rest++y::back := by
  induction rest generalizing x front with
  | nil => exact ⟨x,by simp [closeGap]⟩
  | cons z rest ih =>
    have hz : (front++x::(z::rest++back)).getD (front.length+1) d = z := by simp
    have hset : (front++x::(z::rest++back)).set front.length z =
        (front++[z])++z::(rest++back) := by
      simp
    obtain ⟨y,hy⟩ := ih z (front++[z])
    refine ⟨y,?_⟩
    rw [length_append,length_singleton] at hy
    rw [closeGap,length_cons,range'_succ,foldl_cons,hz,hset]
    rw [closeGap] at hy
    rw [hy]
    simp

end

section

variable {α : Type} (p : α → Bool) (f : α → ℕ)

/-- One turn of a search for the largest, which starts at size 0. -/
def keepLarger (best : Option α × ℕ) (x : α) : Option α × ℕ :=
  if p x ∧ best.2 < f x then (some x,f x) else best

def largest (xs : List α) : Option α × ℕ := xs.foldl (keepLarger p f) (none,0)

structure FirstLargest (xs : List α) (x : α) : Prop where
  holds : p x
  pos : 0 < f x
  split : ∃ l r, xs = l++x::r ∧ (∀ y ∈ l, p y → f y < f x) ∧ ∀ y ∈ r, p y → f y ≤ f x

variable {p f} {xs : List α} {x : α}

theorem FirstLargest.mem (h : FirstLargest p f xs x) : x ∈ xs := by
  obtain ⟨l,r,rfl,-,-⟩ := h.split
  exact mem_append_right l mem_cons_self

theorem FirstLargest.le (h : FirstLargest p f xs x) (hy : y ∈ xs) (hp : p y) : f y ≤ f x := by
  obtain ⟨l,r,rfl,hl,hr⟩ := h.split
  rcases mem_append.mp hy with hy | hy
  · exact (hl y hy hp).le
  · rcases mem_cons.mp hy with rfl | hy
    · exact le_rfl
    · exact hr y hy hp

theorem largest_append : largest p f (xs++[y]) = keepLarger p f (largest p f xs) y := by
  rw [largest,foldl_append]
  rfl

theorem largest_cases (xs : List α) :
    largest p f xs = (none,0) ∧ (∀ y ∈ xs, p y → f y = 0) ∨
      ∃ x, largest p f xs = (some x,f x) ∧ FirstLargest p f xs x := by
  induction xs using reverseRecOn with
  | nil => exact .inl ⟨rfl,fun y hy => absurd hy not_mem_nil⟩
  | append_singleton xs y ih =>
    rw [largest_append,keepLarger]
    rcases ih with ⟨hnone,hzero⟩ | ⟨x,hsome,hx⟩
    · rw [hnone]
      by_cases hy : p y ∧ 0 < f y
      · rw [if_pos hy]
        refine .inr ⟨y,rfl,hy.1,hy.2,xs,[],rfl,?_,by simp⟩
        exact fun z hz hp => (hzero z hz hp).trans_lt hy.2
      · rw [if_neg hy]
        refine .inl ⟨rfl,fun z hz hp => ?_⟩
        rcases mem_append.mp hz with hz | hz
        · exact hzero z hz hp
        · obtain rfl := mem_singleton.mp hz
          exact Nat.eq_zero_of_not_pos fun hpos => hy ⟨hp,hpos⟩
    · rw [hsome]
      by_cases hy : p y ∧ f x < f y
      · rw [if_pos hy]
        refine .inr ⟨y,rfl,hy.1,hx.pos.trans hy.2,xs,[],rfl,?_,by simp⟩
        exact fun z hz hp => (hx.le hz hp).trans_lt hy.2
      · rw [if_neg hy]
        obtain ⟨l,r,rfl,hl,hr⟩ := hx.split
        refine .inr ⟨x,rfl,hx.holds,hx.pos,l,r++[y],by simp,hl,fun z hz hp => ?_⟩
        rcases mem_append.mp hz with hz | hz
        · exact hr z hz hp
        · obtain rfl := mem_singleton.mp hz
          exact not_lt.mp fun hlt => hy ⟨hp,hlt⟩

end

end TinyDeviceOs.ArrayLoops
