import Mathlib.Data.List.Induction
import Mathlib.Logic.Relation

/-! Runs of a machine that takes one step per label. -/
namespace TinyDeviceOs.Runs

open List

variable {σ ι : Type} (step : σ → ι → σ)

def after (s : σ) (xs : List ι) : σ := xs.foldl step s

/-- Each label meets the condition where it is taken. -/
def Each (cond : σ → ι → Prop) : σ → List ι → Prop
  | _,[] => True
  | s,x::xs => cond s x ∧ Each cond (step s x) xs

/-- At the first state, the last and all between. -/
def Along (P : σ → Prop) : σ → List ι → Prop
  | s,[] => P s
  | s,x::xs => P s ∧ Along P (step s x) xs

def total (amount : σ → ι → ℕ) : σ → List ι → ℕ
  | _,[] => 0
  | s,x::xs => amount s x+total amount (step s x) xs

instance decidableEach (cond : σ → ι → Prop) [∀ s x, Decidable (cond s x)] (s : σ)
    (xs : List ι) : Decidable (Each step cond s xs) := by
  induction xs generalizing s with
  | nil => exact isTrue trivial
  | cons x xs ih => exact instDecidableAnd

variable {step} {cond : σ → ι → Prop} {s : σ} {xs ys : List ι}

@[simp] theorem after_nil : after step s [] = s := rfl

@[simp] theorem after_cons : after step s (x::xs) = after step (step s x) xs := rfl

theorem after_append : after step s (xs++ys) = after step (after step s xs) ys := foldl_append

theorem each_append : Each step cond s (xs++ys) ↔
    Each step cond s xs ∧ Each step cond (after step s xs) ys := by
  induction xs generalizing s with
  | nil => simp [Each]
  | cons x xs ih => exact (and_congr_right fun _ => ih).trans and_assoc.symm

variable {good : σ → ι → Prop}

theorem Each.imp (himp : ∀ s x, cond s x → good s x)
    (h : Each step cond s xs) : Each step good s xs := by
  induction xs generalizing s with
  | nil => trivial
  | cons x xs ih => exact ⟨himp s x h.1,ih h.2⟩

theorem total_append : total step amount s (xs++ys) = total step amount s xs+total step amount
    (after step s xs) ys := by
  induction xs generalizing s with
  | nil => exact (Nat.zero_add _).symm
  | cons x xs ih => exact (congrArg (amount s x+·) ih).trans (Nat.add_assoc _ _ _).symm

variable {I : σ → Prop}

/-- What every step keeps, a run keeps. -/
theorem invariant (hstep : ∀ s x, I s → cond s x → I (step s x))
    (h : I s) (hc : Each step cond s xs) : I (after step s xs) := by
  induction xs generalizing s with
  | nil => exact h
  | cons x xs ih => exact ih (hstep s x h hc.1) hc.2

theorem always (hstep : ∀ s x, I s → I (step s x)) (h : I s) :
    I (after step s xs) := by
  induction xs generalizing s with
  | nil => exact h
  | cons x xs ih => exact ih (hstep s x h)

variable {good' : σ → ι → Prop}

/-- They agree as long as the first has held. -/
theorem each_iff
    (hstep : ∀ s x, I s → good s x → I (step s x))
    (hiff : ∀ s x, I s → (good s x ↔ good' s x)) (h : I s) :
    Each step good s xs ↔ Each step good' s xs := by
  induction xs generalizing s with
  | nil => exact Iff.rfl
  | cons x xs ih =>
    exact (and_congr_right fun hx => ih (hstep s x h hx)).trans (and_congr_left' (hiff s x h))

theorem each_iff_of_each
    (hstep : ∀ s x, I s → cond s x → good s x → I (step s x))
    (hiff : ∀ s x, I s → cond s x → (good s x ↔ good' s x)) (h : I s)
    (hc : Each step cond s xs) : Each step good s xs ↔ Each step good' s xs := by
  induction xs generalizing s with
  | nil => exact Iff.rfl
  | cons x xs ih =>
    have hrest := fun hx => ih (hstep s x h hc.1 hx) hc.2
    exact (and_congr_right hrest).trans (and_congr_left' (hiff s x h hc.1))

/-- A machine that stops at the first step that breaks the condition. -/
theorem alive_iff_each {A : σ → Prop} (hstop : ∀ s x, ¬A s → ¬A (step s x))
    (hiff : ∀ s x, I s → A s → (A (step s x) ↔ cond s x))
    (hstep : ∀ s x, I s → A s → A (step s x) → I (step s x)) (h : I s) (ha : A s) :
    A (after step s xs) ↔ Each step cond s xs := by
  induction xs generalizing s with
  | nil => exact iff_of_true ha trivial
  | cons x xs ih =>
    by_cases hx : cond s x
    · have hnext := (hiff s x h ha).mpr hx
      exact (ih (hstep s x h ha hnext) hnext).trans (and_iff_right hx).symm
    · have hnext := mt (hiff s x h ha).mp hx
      have hrest : ¬A (after step (step s x) xs) := always (I:=fun s => ¬A s) hstop hnext
      exact iff_of_false hrest fun hc => hx hc.1

section

variable {P Q : σ → Prop}

theorem Along.head (h : Along step P s xs) : P s := by
  cases xs with
  | nil => exact h
  | cons x xs => exact h.1

/-- What the steps keep holds all along. -/
theorem along_of_each (hstep : ∀ s x, I s → cond s x → I (step s x))
    (himp : ∀ s, I s → P s) (h : I s) (hc : Each step cond s xs) : Along step P s xs := by
  induction xs generalizing s with
  | nil => exact himp s h
  | cons x xs ih => exact ⟨himp s h,ih (hstep s x h hc.1) hc.2⟩

theorem along_of_invariant (hstep : ∀ s x, I s → I (step s x))
    (himp : ∀ s, I s → P s) (h : I s) : Along step P s xs := by
  induction xs generalizing s with
  | nil => exact himp s h
  | cons x xs ih => exact ⟨himp s h,ih (hstep s x h)⟩

theorem along_and : Along step (fun s => P s ∧ Q s) s xs ↔
    Along step P s xs ∧ Along step Q s xs := by
  induction xs generalizing s with
  | nil => exact Iff.rfl
  | cons x xs ih => exact (and_congr_right fun _ => ih).trans and_and_and_comm

theorem along_congr (hiff : ∀ s, I s → (P s ↔ Q s)) (h : Along step I s xs) :
    Along step P s xs ↔ Along step Q s xs := by
  induction xs generalizing s with
  | nil => exact hiff s h
  | cons x xs ih => exact and_congr (hiff s h.1) (ih h.2)

/-- True as long as every step meets the condition. -/
theorem along_iff_each (hiff : ∀ s x, P s → (P (step s x) ↔ cond s x)) :
    Along step P s xs ↔ P s ∧ Each step cond s xs := by
  induction xs generalizing s with
  | nil => exact (iff_of_eq (and_true _)).symm
  | cons x xs ih =>
    refine and_congr_right fun h => ?_
    rw [ih]
    exact and_congr_left' (hiff s x h)

end

section

variable {P : List ι → ι → Prop} {x : ι}

/-- Every label meets the condition after the labels before it. -/
def AtEach (P : List ι → ι → Prop) (xs : List ι) : Prop := ∀ l x r, xs = l++x::r → P l x

theorem atEach_nil : AtEach P [] := fun l x r h => by simp at h

theorem AtEach.left (h : AtEach P (xs++ys)) : AtEach P xs :=
  fun l y r hxs => h l y (r++ys) (by simp [hxs])

theorem atEach_append : AtEach P (xs++[x]) ↔ AtEach P xs ∧ P xs x := by
  constructor
  · intro h
    exact ⟨h.left,h xs x [] rfl⟩
  · rintro ⟨hxs,hx⟩ l y r hsplit
    rcases eq_nil_or_concat r with rfl | ⟨r,z,rfl⟩
    · obtain ⟨rfl,rfl⟩ : xs = l ∧ x = y := by simpa using hsplit
      exact hx
    · rw [concat_eq_append,←cons_append,←append_assoc] at hsplit
      exact hxs l y r (append_inj_left' hsplit rfl)

theorem atEach_and {Q : List ι → ι → Prop} :
    AtEach (fun l x => P l x ∧ Q l x) xs ↔ AtEach P xs ∧ AtEach Q xs :=
  ⟨fun h => ⟨fun l x r hxs => (h l x r hxs).1,fun l x r hxs => (h l x r hxs).2⟩,
    fun h l x r hxs => ⟨h.1 l x r hxs,h.2 l x r hxs⟩⟩

theorem atEach_map {κ : Type} (f : κ → ι) {ys : List κ} :
    AtEach P (ys.map f) ↔ AtEach (fun l y => P (l.map f) (f y)) ys := by
  induction ys using reverseRecOn with
  | nil => exact iff_of_true atEach_nil atEach_nil
  | append_singleton ys y ih =>
    rw [map_append,map_singleton,atEach_append,atEach_append,ih]

theorem first_of_not_atEach (h : ¬AtEach P xs) :
    ∃ l x r, xs = l++x::r ∧ AtEach P l ∧ ¬P l x := by
  induction xs using reverseRecOn with
  | nil => exact absurd atEach_nil h
  | append_singleton xs x ih =>
    by_cases hxs : AtEach P xs
    · exact ⟨xs,x,[],rfl,hxs,fun hx => h (atEach_append.mpr ⟨hxs,hx⟩)⟩
    · obtain ⟨l,y,r,rfl,hl,hy⟩ := ih hxs
      exact ⟨l,y,r++[x],by simp,hl,hy⟩

end

section

variable {round : σ → Option σ} {quiet : σ → σ → Prop}

/-- Whatever quiet steps are taken between the rounds. -/
def EndsWithin (round : σ → Option σ) (quiet : σ → σ → Prop) : ℕ → σ → Prop
  | 0,s => round s = none
  | k+1,s => ∀ s', round s = some s' →
    ∀ s'', Relation.ReflTransGen quiet s' s'' → EndsWithin round quiet k s''

/-- Rounds use up a measure to which quiet steps do not add. -/
theorem endsWithin_of_measure {m : σ → ℕ}
    (hround : ∀ s s', I s → round s = some s' → I s' ∧ m s' < m s)
    (hquiet : ∀ s s', I s → quiet s s' → I s' ∧ m s' ≤ m s) {k : ℕ} (h : I s) (hk : m s ≤ k) :
    EndsWithin round quiet k s := by
  induction k generalizing s with
  | zero =>
    rw [EndsWithin]
    cases hs : round s with
    | none => rfl
    | some s' => exact absurd (hround s s' h hs).2 (by omega)
  | succ k ih =>
    intro s' hs s'' hsteps
    obtain ⟨h',hless⟩ := hround s s' h hs
    have hcalm : I s'' ∧ m s'' ≤ m s' := by
      induction hsteps with
      | refl => exact ⟨h',Nat.le_refl _⟩
      | tail _ hstep ih =>
        obtain ⟨hinv,hle⟩ := ih
        obtain ⟨hinv',hle'⟩ := hquiet _ _ hinv hstep
        exact ⟨hinv',Nat.le_trans hle' hle⟩
    exact ih hcalm.1 (by omega)

/-- From some states there always is another round. -/
theorem not_endsWithin (hround : ∀ s, I s → ∃ s', round s = some s' ∧ I s') (h : I s) :
    ¬EndsWithin round quiet k s := by
  induction k generalizing s with
  | zero =>
    obtain ⟨s',hs,-⟩ := hround s h
    exact fun hend => Option.some_ne_none s' (hs.symm.trans hend)
  | succ k ih =>
    obtain ⟨s',hs,h'⟩ := hround s h
    exact fun hend => ih h' (hend s' hs s' Relation.ReflTransGen.refl)

end

end TinyDeviceOs.Runs

namespace TinyDeviceOs.Observations

section

variable {σ τ ι ο : Type} {step : σ → ι → σ} {seen : σ → ι → ο} {step' : τ → ι → τ}
  {seen' : τ → ι → ο}

def trace (step : σ → ι → σ) (seen : σ → ι → ο) : σ → List ι → List ο
  | _,[] => []
  | s,x::xs => seen s x::trace step seen (step s x) xs

/-- No run from one state shows anything else than from the other. -/
def Alike (step : σ → ι → σ) (seen : σ → ι → ο) (s t : σ) : Prop :=
  ∀ xs, trace step seen s xs = trace step seen t xs

/-- Machines that stay related show the same. -/
theorem trace_eq_of_simulation {R : σ → τ → Prop}
    (hstep : ∀ s t x, R s t → seen s x = seen' t x ∧ R (step s x) (step' t x)) {s : σ} {t : τ}
    (h : R s t) (xs : List ι) : trace step seen s xs = trace step' seen' t xs := by
  induction xs generalizing s t with
  | nil => rfl
  | cons x xs ih =>
    obtain ⟨hseen,hnext⟩ := hstep s t x h
    rw [trace,trace,hseen,ih hnext]

theorem Alike.seen_eq (h : Alike step seen s t) (x : ι) : seen s x = seen t x :=
  (List.cons.inj (h [x])).1

theorem Alike.next (h : Alike step seen s t) (x : ι) :
    Alike step seen (step s x) (step t x) := fun xs => (List.cons.inj (h (x::xs))).2

end

end TinyDeviceOs.Observations
