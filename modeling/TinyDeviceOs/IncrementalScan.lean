import Mathlib.Tactic

/-! Resynchronizing scanners over a stream that arrives in chunks. A scanner waits, skips one
symbol or takes an item; later input may not revise that, which makes the items independent of the
chunking. -/
namespace TinyDeviceOs.IncrementalScan

open List

inductive Verdict
  | wait | skip | take (n : ℕ)
  deriving DecidableEq

structure Scanner (α : Type) where
  verdict : List α → Verdict
  nil_wait : verdict [] = .wait
  take_pos : ∀ {xs : List α} {n : ℕ}, verdict xs = .take n → 0 < n
  take_le : ∀ {xs : List α} {n : ℕ}, verdict xs = .take n → n ≤ xs.length
  stable : ∀ xs ys : List α, verdict xs ≠ .wait → verdict (xs++ys) = verdict xs

variable {α : Type} (S : Scanner α)

theorem Scanner.ne_nil (xs : List α) (h : S.verdict xs ≠ .wait) : xs ≠ [] := by
  rintro rfl
  exact h S.nil_wait

/-- The items found, with the suffix still waiting. -/
def scan (xs : List α) : List (List α) × List α :=
  match _h : S.verdict xs with
  | .wait => ([],xs)
  | .skip => scan xs.tail
  | .take n => ((xs.take n) :: (scan (xs.drop n)).1,(scan (xs.drop n)).2)
termination_by xs.length
decreasing_by
  all_goals
    have hn : xs ≠ [] := S.ne_nil xs (by simp [_h])
    have hp := length_pos_iff.mpr hn
  · simp only [length_tail]; omega
  · have ht := S.take_pos _h
    simp only [length_drop]; omega

variable {S} {xs : List α}

theorem scan_wait (h : S.verdict xs = .wait) : scan S xs = ([],xs) := by
  rw [scan]; split <;> simp_all

theorem scan_skip (h : S.verdict xs = .skip) : scan S xs = scan S xs.tail := by
  rw [scan]; split <;> simp_all

theorem scan_take (h : S.verdict xs = .take n) : scan S xs = (xs.take n :: (scan S (xs.drop
    n)).1,(scan S (xs.drop n)).2) := by
  rw [scan]; split <;> simp_all

theorem scan_induction {motive : List α → Prop}
    (wait : ∀ xs, S.verdict xs = .wait → motive xs)
    (skip : ∀ xs, S.verdict xs = .skip → motive xs.tail → motive xs)
    (take : ∀ xs n, S.verdict xs = .take n → motive (xs.drop n) → motive xs)
    (xs : List α) : motive xs := by
  induction hk : xs.length using Nat.strong_induction_on generalizing xs with
  | _ k ih =>
    cases hv : S.verdict xs with
    | wait => exact wait xs hv
    | skip =>
      have hp := length_pos_iff.mpr (S.ne_nil xs (by simp [hv]))
      exact skip xs hv (ih _ (by simp only [length_tail]; omega) _ rfl)
    | take n =>
      have hp := length_pos_iff.mpr (S.ne_nil xs (by simp [hv]))
      have ht := S.take_pos hv
      exact take xs n hv (ih _ (by simp only [length_drop]; omega) _ rfl)

variable (S)

@[simp] theorem verdict_rest (xs : List α) : S.verdict (scan S xs).2 = .wait := by
  induction xs using scan_induction (S:=S) with
  | wait xs h => simpa [scan_wait h] using h
  | skip xs h ih => simpa [scan_skip h] using ih
  | take xs n h ih => simpa [scan_take h] using ih

/-- From the waiting suffix as if the stream had never stopped. -/
theorem scan_append (xs ys : List α) :
    scan S (xs++ys) = ((scan S xs).1++(scan S ((scan S xs).2++ys)).1,
      (scan S ((scan S xs).2++ys)).2) := by
  induction xs using scan_induction (S:=S) with
  | wait xs h => simp [scan_wait h]
  | skip xs h ih =>
    have hn := S.ne_nil xs (by simp [h])
    have hs : S.verdict (xs++ys) = .skip := by rw [S.stable xs ys (by simp [h]),h]
    rw [scan_skip hs,scan_skip h,tail_append_of_ne_nil hn,ih]
  | take xs n h ih =>
    have hl := S.take_le h
    have ht : S.verdict (xs++ys) = .take n := by rw [S.stable xs ys (by simp [h]),h]
    rw [scan_take ht,scan_take h,take_append_of_le_length hl,drop_append_of_le_length hl,ih]
    simp

/-- A chunk for a receiver that keeps the waiting suffix. -/
def feed (st : List (List α) × List α) (chunk : List α) : List (List α) × List α :=
  (st.1++(scan S (st.2++chunk)).1,(scan S (st.2++chunk)).2)

variable (chunks : List (List α))

theorem foldl_feed_from (out : List (List α)) (hb : S.verdict buf = .wait) : chunks.foldl (feed
    S) (out,buf) = (out++(scan S (buf++chunks.flatten)).1,(scan S (buf++chunks.flatten)).2) := by
  induction chunks generalizing out buf with
  | nil => simp [scan_wait hb]
  | cons c cs ih =>
    have hr := verdict_rest S (buf++c)
    have ha := scan_append S (buf++c) cs.flatten
    simp only [foldl_cons,flatten_cons,feed]
    simp only [ih _ hr,← append_assoc,ha]

theorem foldl_feed : chunks.foldl (feed S) ([],[]) = scan S chunks.flatten := by
  simpa using foldl_feed_from S chunks [] S.nil_wait

section

/-- A word that the scanner takes whole. -/
def Item (w : List α) : Prop := S.verdict w = .take w.length

variable {S} {w : List α}

theorem Item.append (h : Item S w) (ys : List α) : S.verdict (w++ys) = .take w.length := by
  rw [S.stable w ys (by rw [h]; exact Verdict.noConfusion),h]

theorem Item.wait (h : Item S w) (heq : xs++ys = w++zs) (hl : xs.length < w.length) : S.verdict
    xs = .wait := by
  by_contra hne
  have hv := S.stable xs ys hne
  rw [heq,h.append] at hv
  have hle := S.take_le hv.symm
  omega

theorem Item.split (h : Item S w) (heq : xs++ys = w++zs) : S.verdict xs = .wait ∨ ∃ us, xs =
    w++us ∧ us++ys = zs ∧ S.verdict xs = .take w.length := by
  by_cases hl : xs.length < w.length
  · exact .inl (h.wait heq hl)
  · rcases append_eq_append_iff.mp heq with ⟨us,hw,-⟩ | ⟨us,hx,hz⟩
    · have hlen := congrArg length hw
      rw [length_append] at hlen
      obtain rfl : us = [] := length_eq_zero_iff.mp (by omega)
      rw [append_nil] at hw
      subst hw
      exact .inr ⟨[],by simp,by simpa using heq,h⟩
    · exact .inr ⟨us,hx,hz.symm,by rw [hx,h.append]⟩

/-- Cut anywhere, the items that have arrived whole are found. -/
theorem scan_items (hws : ∀ w ∈ ws, Item S w) (h : xs++rest = ws.flatten) : ∃ ws₂, ws = (scan S
    xs).1++ws₂ ∧ (scan S xs).2++rest = ws₂.flatten := by
  induction ws generalizing xs with
  | nil =>
    obtain ⟨rfl,rfl⟩ := append_eq_nil_iff.mp h
    rw [scan_wait S.nil_wait]
    exact ⟨[],rfl,rfl⟩
  | cons w ws ih =>
    rw [forall_mem_cons] at hws
    rw [flatten_cons] at h
    rcases hws.1.split h with hwait | ⟨us,rfl,hus,htake⟩
    · rw [scan_wait hwait]
      exact ⟨w::ws,rfl,h⟩
    · obtain ⟨ws₂,hsplit,hrest⟩ := ih hws.2 hus
      rw [scan_take htake,take_left,drop_left]
      exact ⟨ws₂,by rw [cons_append,←hsplit],hrest⟩

end

end TinyDeviceOs.IncrementalScan
