import Mathlib.Data.List.GetD
import Mathlib.Tactic

/-! The exchange sort of an array, largest element first. -/
namespace TinyDeviceOs.ExchangeSort

open List

variable {α : Type} [LT α] [DecidableLT α] (d : α)

def exchange (i : ℕ) (l : List α) (j : ℕ) : List α :=
  if l.getD i d < l.getD j d then (l.set i (l.getD j d)).set j (l.getD i d) else l

def sweep (n : ℕ) (l : List α) (i : ℕ) : List α :=
  (range' (i+1) (n-(i+1))).foldl (exchange d i) l

def exchangeSort (l : List α) : List α := (range l.length).foldl (sweep d l.length) l

def pass (x : α) : List α → α × List α
  | [] => (x,[])
  | y::ys => if x < y then ((pass y ys).1,x::(pass y ys).2) else ((pass x ys).1,y::(pass x ys).2)

theorem pass_perm (x : α) (l : List α) : ((pass x l).1::(pass x l).2).Perm (x::l) := by
  induction l generalizing x with
  | nil => exact List.Perm.refl _
  | cons y ys ih =>
    rw [pass]
    split_ifs
    · exact (List.Perm.swap _ _ _).trans ((ih y).cons x)
    · exact (List.Perm.swap _ _ _).trans (((ih x).cons y).trans (List.Perm.swap _ _ _))

theorem pass_length (x : α) (l : List α) : (pass x l).2.length = l.length :=
  Nat.succ.inj (pass_perm x l).length_eq

theorem exchange_append : exchange d pre.length (pre++x::(mid++y::post))
    (pre.length+1+mid.length) = if x < y then pre++y::(mid++x::post) else pre++x::(mid++y::post) := by
  have hx : (pre++x::(mid++y::post)).getD pre.length d = x := by simp
  have hsplit : pre++x::(mid++y::post) = (pre++x::mid)++y::post := by simp
  have hlen : pre.length+1+mid.length = (pre++x::mid).length := by
    rw [length_append,length_cons]
    omega
  have hy : (pre++x::(mid++y::post)).getD (pre.length+1+mid.length) d = y := by
    rw [hsplit,hlen]
    simp
  rw [exchange,hx,hy]
  split_ifs
  · have hfirst : (pre++x::(mid++y::post)).set pre.length y = (pre++y::mid)++y::post := by simp
    have hlen' : pre.length+1+mid.length = (pre++y::mid).length := by
      rw [length_append,length_cons]
      omega
    rw [hfirst,hlen']
    simp
  · rfl

theorem sweep_append (pre mid todo : List α) (x : α) :
    (range' (pre.length+1+mid.length) todo.length).foldl (exchange d pre.length)
      (pre++x::(mid++todo)) = pre++(pass x todo).1::(mid++(pass x todo).2) := by
  induction todo generalizing x mid with
  | nil => rfl
  | cons y ys ih =>
    rw [length_cons,range'_succ,foldl_cons,exchange_append,pass]
    have hnext : ∀ z, pre.length+1+mid.length+1 = pre.length+1+(mid++[z]).length := by
      intro z
      rw [length_append,length_singleton]
      omega
    split_ifs
    · have hrest := ih (mid++[x]) y
      rw [append_assoc,append_assoc,←hnext] at hrest
      exact hrest
    · have hrest := ih (mid++[y]) x
      rw [append_assoc,append_assoc,←hnext] at hrest
      exact hrest

section

variable [LE α] [Std.IsLinearOrder α] [Std.LawfulOrderLT α]

theorem pass_max (x : α) (l : List α) : ∀ y ∈ x::l, y ≤ (pass x l).1 := by
  induction l generalizing x with
  | nil => exact fun y hy => mem_singleton.mp hy ▸ Std.le_refl y
  | cons z zs ih =>
    intro y hy
    rw [pass]
    split_ifs with hlt
    · rcases mem_cons.mp hy with rfl | hy
      · exact Std.le_trans (Std.le_of_lt hlt) (ih z z mem_cons_self)
      · exact ih z y hy
    · rcases mem_cons.mp hy with rfl | hy
      · exact ih y y mem_cons_self
      rcases mem_cons.mp hy with rfl | hy
      · exact Std.le_trans (Std.not_lt.mp hlt) (ih x x mem_cons_self)
      · exact ih x y (mem_cons_of_mem x hy)

theorem sweeps_sorted (pre todo : List α) : ∃ rest,
    (range' pre.length todo.length).foldl (sweep d (pre++todo).length) (pre++todo) =
      pre++rest ∧ rest.Perm todo ∧ rest.Pairwise (· ≥ ·) := by
  generalize hn : todo.length = n
  induction n generalizing pre todo with
  | zero =>
    obtain rfl := length_eq_zero_iff.mp hn
    exact ⟨[],rfl,List.Perm.refl _,List.Pairwise.nil⟩
  | succ n ih =>
    obtain ⟨x,xs,rfl⟩ := exists_cons_of_length_eq_add_one hn
    have hone : sweep d (pre++x::xs).length (pre++x::xs) pre.length =
        (pre++[(pass x xs).1])++(pass x xs).2 := by
      have hcount : (pre++x::xs).length-(pre.length+1) = xs.length := by
        rw [length_append,length_cons]
        omega
      have hall := sweep_append d pre [] xs x
      rw [sweep,hcount]
      rw [append_assoc]
      exact hall
    have hxs : (pass x xs).2.length = n := (pass_length x xs).trans (Nat.succ.inj hn)
    obtain ⟨rest,hrest,hperm,hsorted⟩ := ih (pre++[(pass x xs).1]) (pass x xs).2 hxs
    have hlen : ((pre++[(pass x xs).1])++(pass x xs).2).length = (pre++x::xs).length := by
      simp [pass_length]
    have hstart : (pre++[(pass x xs).1]).length = pre.length+1 := by simp
    rw [hlen,hstart,←hone] at hrest
    refine ⟨(pass x xs).1::rest,?_,(hperm.cons _).trans (pass_perm x xs),?_⟩
    · rw [range'_succ,foldl_cons,hrest,append_assoc]
      rfl
    · refine pairwise_cons.mpr ⟨fun y hy => ?_,hsorted⟩
      have hmem : y ∈ x::xs :=
        (pass_perm x xs).subset (mem_cons_of_mem _ (hperm.subset hy))
      exact pass_max x xs y hmem

theorem exchangeSort_correct : (exchangeSort d l).Perm l ∧ (exchangeSort d l).Pairwise (· ≥ ·) := by
  obtain ⟨rest,hrest,hperm,hsorted⟩ := sweeps_sorted d [] l
  have hsort : exchangeSort d l = rest := by
    rw [exchangeSort,range_eq_range']
    exact hrest
  rw [hsort]
  exact ⟨hperm,hsorted⟩

theorem exchangeSort_length : (exchangeSort d l).length = l.length :=
  (exchangeSort_correct d).1.length_eq

theorem exchangeSort_getD_mem (hi : i < l.length) : (exchangeSort d l).getD i d ∈ l := by
  have hi' : i < (exchangeSort d l).length := (exchangeSort_length d).symm ▸ hi
  rw [getD_eq_getElem _ _ hi']
  exact (exchangeSort_correct d).1.subset (getElem_mem hi')

theorem exchangeSort_getD_le (hij : i ≤ j) (hj : j < l.length) : (exchangeSort d l).getD j d ≤
    (exchangeSort d l).getD i d := by
  have hj' : j < (exchangeSort d l).length := (exchangeSort_length d).symm ▸ hj
  rcases Nat.eq_or_lt_of_le hij with rfl | hlt
  · exact Std.le_refl _
  · rw [getD_eq_getElem _ _ hj',getD_eq_getElem _ _ (hlt.trans hj')]
    exact pairwise_iff_getElem.mp (exchangeSort_correct d).2 i j (hlt.trans hj') hj' hlt

theorem exists_place (hx : x ∈ l) : ∃ i, i < l.length ∧ (exchangeSort d l).getD i d = x := by
  obtain ⟨i,hi,hget⟩ := getElem_of_mem ((exchangeSort_correct d).1.symm.subset hx)
  exact ⟨i,exchangeSort_length d ▸ hi,(getD_eq_getElem _ _ hi).trans hget⟩

end

end TinyDeviceOs.ExchangeSort
