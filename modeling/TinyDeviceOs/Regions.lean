import Mathlib.Data.List.GetD
import Mathlib.Tactic

/-! Ranges of a buffer: reading one, writing over one, and what a write leaves of the others. -/
namespace TinyDeviceOs.Regions

open List

variable {α : Type} {d : α} {xs ys : List α} {offset offset' size : ℕ}

def slice (xs : List α) (offset size : ℕ) : List α := (xs.drop offset).take size

/-- A gap before `offset` is filled with `d`. -/
def patch (d : α) (xs : List α) (offset : ℕ) (ys : List α) : List α :=
  xs.take offset++replicate (offset-xs.length) d++ys++xs.drop (offset+ys.length)

def resize (d : α) (xs : List α) (size : ℕ) : List α :=
  xs.take size++replicate (size-xs.length) d

theorem slice_getElem? : (slice xs offset size)[i]? = if i < size then xs[offset+i]? else none := by
  rw [slice,getElem?_take,getElem?_drop]

theorem patch_getElem? : (patch d xs offset ys)[i]? = if offset ≤ i ∧ i < offset+ys.length then
    ys[i-offset]? else if i < offset ∧ xs.length ≤ i then some d else xs[i]? := by
  have hgap : (xs.take offset++replicate (offset-xs.length) d).length = offset := by
    simp
    omega
  rw [patch,append_assoc]
  by_cases hi : i < offset
  · rw [getElem?_append_left (by omega),if_neg (by omega)]
    by_cases hx : i < xs.length
    · rw [getElem?_append_left (by simp; omega),getElem?_take,if_pos hi,if_neg (by omega)]
    · rw [getElem?_append_right (by simp; omega),if_pos (by omega),getElem?_replicate,
        if_pos (by simp; omega)]
  · rw [getElem?_append_right (by omega),hgap]
    by_cases hy : i < offset+ys.length
    · rw [getElem?_append_left (by omega),if_pos (by omega)]
    · rw [getElem?_append_right (by omega),getElem?_drop,if_neg (by omega),
        if_neg (by omega)]
      congr 1
      omega

theorem patch_length : (patch d xs offset ys).length = max xs.length (offset+ys.length) := by
  simp [patch]
  omega

theorem slice_patch_self : slice (patch d xs offset ys) offset ys.length = ys := by
  apply ext_getElem?
  intro i
  rw [slice_getElem?,patch_getElem?]
  by_cases hi : i < ys.length
  · rw [if_pos hi,if_pos (by omega),Nat.add_sub_cancel_left]
  · rw [if_neg hi,getElem?_eq_none (by omega)]

theorem slice_patch_of_disjoint (hin : offset'+size ≤ xs.length)
    (hd : offset'+size ≤ offset ∨ offset+ys.length ≤ offset') :
    slice (patch d xs offset ys) offset' size = slice xs offset' size := by
  apply ext_getElem?
  intro i
  rw [slice_getElem?,slice_getElem?,patch_getElem?]
  by_cases hi : i < size
  · rw [if_pos hi,if_pos hi,if_neg (by omega),if_neg (by omega)]
  · rw [if_neg hi,if_neg hi]

theorem slice_length (h : offset+size ≤ xs.length) : (slice xs offset size).length = size := by
  simp [slice]
  omega

theorem resize_length : (resize d xs size).length = size := by
  simp [resize]
  omega

theorem patch_resize (h : xs.length = offset) :
    patch d (resize d xs (offset+ys.length)) offset ys = xs++ys := by
  subst h
  apply ext_getElem?
  intro i
  rw [patch_getElem?]
  by_cases hi : i < xs.length
  · rw [if_neg (by omega),if_neg (by rw [resize_length]; omega),getElem?_append_left hi,resize,
      getElem?_append_left (by simp; omega),getElem?_take,if_pos (by omega)]
  · rw [getElem?_append_right (by omega)]
    by_cases hy : i < xs.length+ys.length
    · rw [if_pos (by omega)]
    · rw [if_neg (by omega),if_neg (by omega),getElem?_eq_none (by rw [resize_length]; omega),
        getElem?_eq_none (by omega)]

theorem patch_append (ho : xs.length = offset) (hw : ws.length = ys.length) : patch d
    (xs++(ys++zs)) offset ws = xs++(ws++zs) := by
  subst ho
  have hgap : xs.length-(xs++(ys++zs)).length = 0 := by simp
  have hrest : (xs++(ys++zs)).drop (xs.length+ws.length) = zs := by
    rw [←append_assoc,hw]
    exact drop_left' length_append
  rw [patch,hgap,hrest,take_left,replicate_zero,append_nil,append_assoc]

theorem patch_fill (ho : xs.length = offset) (hn : ys.length ≤ n) : patch d (xs++replicate n d)
    offset ys = xs++ys++replicate (n-ys.length) d := by
  have hsplit : replicate n d =
      replicate ys.length d++replicate (n-ys.length) d := by
    rw [replicate_append_replicate,Nat.add_sub_cancel' hn]
  rw [hsplit,patch_append ho length_replicate.symm,append_assoc]

theorem slice_append_left (h : offset+size ≤ xs.length) :
    slice (xs++ys) offset size = slice xs offset size := by
  rw [slice,slice,drop_append_of_le_length (by omega),
    take_append_of_le_length (by simp; omega)]

theorem slice_middle (ho : xs.length = offset) (hs : ys.length = size) : slice (xs++(ys++zs))
    offset size = ys := by
  rw [slice,drop_left' ho,take_left' hs]

theorem slice_append_right : slice (xs++ys) xs.length ys.length = ys := by
  simp [slice]

theorem slice_slice (h : offset'+size' ≤ size) : slice (slice xs offset size) offset' size' =
    slice xs (offset+offset') size' := by
  apply ext_getElem?
  intro i
  simp only [slice_getElem?]
  by_cases hi : i < size'
  · rw [if_pos hi,if_pos hi,if_pos (by omega),add_assoc]
  · rw [if_neg hi,if_neg hi]

def overlay (d : α) (xs : List α) (offset : ℕ) (ys : List α) : List α :=
  if ys.length = 0 then xs else patch d xs offset ys

theorem slice_overlay_self : slice (overlay d xs offset ys) offset ys.length = ys := by
  rw [overlay]
  split_ifs with h
  · rw [h,length_eq_zero_iff.mp h,slice,take_zero]
  · exact slice_patch_self

theorem slice_overlay_before (hin : offset'+size ≤ xs.length) (hle : offset'+size ≤ offset) :
    slice (overlay d xs offset ys) offset' size = slice xs offset' size := by
  rw [overlay]
  split_ifs
  · rfl
  · exact slice_patch_of_disjoint hin (.inl hle)

theorem length_le_overlay : xs.length ≤ (overlay d xs offset ys).length := by
  rw [overlay]
  split_ifs
  · exact le_rfl
  · rw [patch_length]
    exact le_max_left _ _

theorem overlay_reaches (h : 0 < ys.length) :
    offset+ys.length ≤ (overlay d xs offset ys).length := by
  rw [overlay,if_neg (ne_of_gt h),patch_length]
  exact le_max_right _ _

section

variable {β : Type} {f : β → List α}

theorem flatMap_length (hf : ∀ x, (f x).length = size) (xs : List β) :
    (xs.flatMap f).length = xs.length*size := by
  induction xs with
  | nil => simp
  | cons x xs ih =>
    rw [flatMap_cons,length_append,hf,ih,length_cons,Nat.succ_mul,add_comm]

theorem slice_flatMap (hf : ∀ x, (f x).length = size) {xs : List β} {i : ℕ} {x : β}
    (hx : xs[i]? = some x) : slice (xs.flatMap f) (i*size) size = f x := by
  induction xs generalizing i with
  | nil => simp at hx
  | cons y xs ih =>
    rw [flatMap_cons,slice]
    cases i with
    | zero =>
      obtain rfl : y = x := by simpa using hx
      rw [zero_mul,drop_zero,take_append_of_le_length (hf y).ge,
        take_of_length_le (hf y).le]
    | succ i =>
      have hskip : (i+1)*size = (f y).length+i*size := by
        rw [hf,Nat.succ_mul,add_comm]
      rw [hskip,drop_append]
      simp only [Nat.add_sub_cancel_left,drop_of_length_le (Nat.le_add_right _ _),
        nil_append]
      exact ih (by simpa using hx)

end

section

variable {s s' : ℕ → α} {a i : ℕ} {log : List (ℕ × List α)}

def put (s : ℕ → α) (a : ℕ) (xs : List α) : ℕ → α := fun i =>
  if a ≤ i then xs.getD (i-a) (s i) else s i

/-- What writes that are made one after the other leave. -/
def replay (s : ℕ → α) (log : List (ℕ × List α)) : ℕ → α := log.foldl (fun s x => put s x.1 x.2) s

theorem put_inside (s' : ℕ → α) (h : a ≤ i ∧ i < a+xs.length) :
    put s a xs i = xs.getD (i-a) (s' i) := by
  rw [put,if_pos h.1,getD_eq_getElem _ _ (by omega),getD_eq_getElem _ _ (by omega)]

theorem put_outside (h : ¬(a ≤ i ∧ i < a+xs.length)) : put s a xs i = s i := by
  rw [put]
  split_ifs with hle
  · exact getD_eq_default _ _ (by omega)
  · rfl

theorem put_nil : put s a [] = s := by
  funext i
  exact put_outside (by simp)

theorem put_append : put (put s a xs) (a+xs.length) ys = put s a (xs++ys) := by
  funext i
  by_cases hy : a+xs.length ≤ i ∧ i < a+xs.length+ys.length
  · rw [put_inside s hy,put,if_pos (by omega),getD_append_right _ _ _ _ (by omega)]
    congr 1
    omega
  · rw [put_outside hy]
    by_cases hx : a ≤ i ∧ i < a+xs.length
    · rw [put,put,if_pos hx.1,if_pos hx.1,getD_append _ _ _ _ (by omega)]
    · rw [put_outside hx,put_outside (by rw [length_append]; omega)]

theorem replay_append : replay s (log++log') = replay (replay s log) log' := foldl_append

/-- Where something was written, nothing of the old content is left. -/
theorem replay_covered (h : ∃ x ∈ log, x.1 ≤ i ∧ i < x.1+x.2.length) :
    replay s log i = replay s' log i := by
  induction log using reverseRecOn with
  | nil => simp at h
  | append_singleton log x ih =>
    rw [replay_append,replay_append]
    change put (replay s log) x.1 x.2 i = put (replay s' log) x.1 x.2 i
    by_cases hx : x.1 ≤ i ∧ i < x.1+x.2.length
    · exact (put_inside s hx).trans (put_inside s hx).symm
    · rw [put_outside hx,put_outside hx]
      obtain ⟨y,hy,hin⟩ := h
      rcases mem_append.mp hy with hy | hy
      · exact ih ⟨y,hy,hin⟩
      · exact absurd (mem_singleton.mp hy▸hin) hx

end

end TinyDeviceOs.Regions
