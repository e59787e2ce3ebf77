import TinyDeviceOs.SchedulerIdle

/-! Nesting of locks and interrupts: what a bracketed sequence of `scheduler_lock`,
`scheduler_unlock`, `scheduler_enter_isr` and `scheduler_exit_isr` leaves behind. -/
namespace TinyDeviceOs.Scheduler

open Runs

inductive NestCall
  | lock | unlock | enterIsr | exitIsr

section

variable (s : Sched)

def nestStep : NestCall → Sched
  | .lock => schedulerLock s
  | .unlock => schedulerUnlock s
  | .enterIsr => schedulerEnterIsr s
  | .exitIsr => schedulerExitIsr s

/-- Each lock has its unlock and each entry its exit, properly nested. -/
inductive Bracketed : List NestCall → Prop
  | nil : Bracketed []
  | lock {xs ys : List NestCall} (inner : Bracketed xs) (rest : Bracketed ys) :
      Bracketed (.lock::(xs++.unlock::ys))
  | isr {xs ys : List NestCall} (inner : Bracketed xs) (rest : Bracketed ys) :
      Bracketed (.enterIsr::(xs++.exitIsr::ys))

def SameNesting (s s' : Sched) : Prop :=
  s'.inIsr = s.inIsr ∧ s'.nestingLevel = s.nestingLevel

/-- The nesting at the end is that at the start, outside interrupts. -/
def Restored (calls : List NestCall) : Prop :=
  (after nestStep s calls).inIsr = false ∧
    (after nestStep s calls).nestingLevel = s.nestingLevel

def Room : NestCall → Prop
  | .lock => s.inIsr = true ∨ s.nestingLevel < 255
  | .enterIsr => s.nestingLevel < 255
  | _ => True

/-- The outermost interrupt comes at level zero. -/
def EntersAtZero : NestCall → Prop
  | .enterIsr => s.inIsr = true ∨ s.nestingLevel = 0
  | _ => True

def Careful (c : NestCall) : Prop := Room s c ∧ EntersAtZero s c

end

theorem lock_true (h : s.inIsr = true) : schedulerLock s = s := by
  rw [schedulerLock,if_pos h]

theorem unlock_true (h : s.inIsr = true) : schedulerUnlock s = s := by
  rw [schedulerUnlock,if_neg]
  simp [h]

theorem unlock_zero (h : s.nestingLevel = 0) : schedulerUnlock s = s := by
  rw [schedulerUnlock,if_neg]
  simp [h]

theorem unlock_inIsr : (schedulerUnlock s).inIsr = s.inIsr := by
  rw [schedulerUnlock]
  split <;> rfl

theorem lock_false (h : s.inIsr = false) :
    (schedulerLock s).inIsr = false ∧ (schedulerLock s).nestingLevel = s.nestingLevel+1 := by
  rw [schedulerLock,if_neg (by simp [h])]
  exact ⟨h,rfl⟩

theorem unlock_false (h : s.inIsr = false) (hn : s.nestingLevel = n+1) (hroom : n < 255) :
    (schedulerUnlock s).inIsr = false ∧ (schedulerUnlock s).nestingLevel = n := by
  have hpos : 0 < s.nestingLevel := by
    rw [hn]
    grind
  rw [schedulerUnlock,if_pos ⟨h,hpos⟩]
  exact ⟨h,by rw [hn,UInt8.add_sub_cancel]⟩

theorem exit_level (hn : s.nestingLevel = n+1) (hroom : n < 255) : (schedulerExitIsr
    s).nestingLevel = n ∧ (schedulerExitIsr s).inIsr = if n = 0 then false else s.inIsr := by
  have hpos : 0 < s.nestingLevel := by
    rw [hn]
    grind
  rw [schedulerExitIsr,if_pos hpos,hn,UInt8.add_sub_cancel]
  exact ⟨rfl,rfl⟩

theorem exit_false (h : (schedulerExitIsr s).inIsr = false)
    (hs : s.inIsr = false → s.nestingLevel = 0) : (schedulerExitIsr s).nestingLevel = 0 := by
  by_cases hzero : (schedulerExitIsr s).nestingLevel = 0
  · exact hzero
  · have hflag : (schedulerExitIsr s).inIsr = s.inIsr := if_neg hzero
    have hlevel := hs (hflag.symm.trans h)
    rw [schedulerExitIsr,hlevel]
    rfl

theorem after_bracket : after nestStep s (a::(xs++b::ys)) =
    after nestStep (nestStep (after nestStep (nestStep s a) xs) b) ys := after_append

theorem each_bracket : Each nestStep P s (a::(xs++b::ys)) ↔
    P s a ∧ Each nestStep P (nestStep s a) xs ∧ P (after nestStep (nestStep s a) xs) b ∧
      Each nestStep P (nestStep (after nestStep (nestStep s a) xs) b) ys :=
  and_congr_right fun _ => each_append

theorem inside_kept (hb : Bracketed calls) (h : s.inIsr = true) (hpos : 0 < s.nestingLevel)
    (hroom : Each nestStep Room s calls) :
    SameNesting s (after nestStep s calls) ∧ Each nestStep Careful s calls := by
  induction hb generalizing s with
  | nil => exact ⟨⟨rfl,rfl⟩,trivial⟩
  | @lock xs ys _ _ ihx ihy =>
    have hlock : nestStep s .lock = s := lock_true h
    obtain ⟨hfirst,hx,-,hrest⟩ := each_bracket.mp hroom
    rw [hlock] at hx hrest
    obtain ⟨hsame,hcare⟩ := ihx h hpos hx
    have hunlock : nestStep (after nestStep s xs) .unlock = after nestStep s xs :=
      unlock_true (hsame.1.trans h)
    rw [hunlock] at hrest
    obtain ⟨hsame',hcare'⟩ := ihy (hsame.1.trans h) (hsame.2.symm ▸ hpos) hrest
    rw [after_bracket,each_bracket,hlock,hunlock]
    exact ⟨⟨hsame'.1.trans hsame.1,hsame'.2.trans hsame.2⟩,⟨hfirst,trivial⟩,hcare,
      ⟨trivial,trivial⟩,hcare'⟩
  | @isr xs ys _ _ ihx ihy =>
    obtain ⟨hfirst,hx,-,hrest⟩ := each_bracket.mp hroom
    have hfirst : s.nestingLevel < 255 := hfirst
    obtain ⟨hsame,hcare⟩ := ihx (s:=schedulerEnterIsr s) rfl (by simp only [schedulerEnterIsr]; grind) hx
    obtain ⟨hlevel,hflag⟩ := exit_level hsame.2 hfirst
    rw [if_neg (by grind)] at hflag
    have hexit : (schedulerExitIsr (after nestStep (schedulerEnterIsr s) xs)).inIsr = true :=
      hflag.trans hsame.1
    obtain ⟨hsame',hcare'⟩ := ihy hexit (hlevel.symm ▸ hpos) hrest
    rw [after_bracket,each_bracket]
    exact ⟨⟨hsame'.1.trans (hexit.trans h.symm),hsame'.2.trans hlevel⟩,⟨hfirst,.inl h⟩,hcare,
      ⟨trivial,trivial⟩,hcare'⟩

/-- Without overflow brackets close, or the interrupt flag stays set for good. -/
theorem careful_or_stuck (hb : Bracketed calls) (h : s.inIsr = false)
    (hroom : Each nestStep Room s calls) :
    (Restored s calls ∧ Each nestStep Careful s calls) ∨
      ((after nestStep s calls).inIsr = true ∧ 0 < (after nestStep s calls).nestingLevel ∧
        ¬Each nestStep Careful s calls) := by
  induction hb generalizing s with
  | nil => exact .inl ⟨⟨h,rfl⟩,trivial⟩
  | @lock xs ys _ hys ihx ihy =>
    obtain ⟨hfirst,hx,-,hrest⟩ := each_bracket.mp hroom
    have hlow : s.nestingLevel < 255 := hfirst.resolve_left (by simp [h])
    obtain ⟨hflag,hlevel⟩ := lock_false h
    rw [Restored,after_bracket,each_bracket]
    rcases ihx hflag hx with ⟨hinner,hcare⟩ | ⟨hstuck,hpos,hcare⟩
    · obtain ⟨hopen,hback⟩ := unlock_false hinner.1 (hinner.2.trans hlevel) hlow
      rcases ihy hopen hrest with ⟨hrest,hcare'⟩ | ⟨hstuck,hpos,hcare'⟩
      · exact .inl ⟨⟨hrest.1,hrest.2.trans hback⟩,⟨hfirst,trivial⟩,hcare,⟨trivial,trivial⟩,hcare'⟩
      · exact .inr ⟨hstuck,hpos,fun hall => hcare' hall.2.2.2⟩
    · have hunlock : nestStep (after nestStep (nestStep s .lock) xs) .unlock =
          after nestStep (nestStep s .lock) xs := unlock_true hstuck
      rw [hunlock] at hrest ⊢
      obtain ⟨hsame,-⟩ := inside_kept hys hstuck hpos hrest
      exact .inr ⟨hsame.1.trans hstuck,hsame.2.symm ▸ hpos,fun hall => hcare hall.2.1⟩
  | @isr xs ys hxs hys _ ihy =>
    obtain ⟨hfirst,hx,-,hrest⟩ := each_bracket.mp hroom
    have hlow : s.nestingLevel < 255 := hfirst
    have hup : 0 < (schedulerEnterIsr s).nestingLevel := by
      simp only [schedulerEnterIsr]
      grind
    obtain ⟨hsame,hcare⟩ := inside_kept (s:=schedulerEnterIsr s) hxs rfl hup hx
    obtain ⟨hlevel,hflag⟩ := exit_level hsame.2 hlow
    rw [Restored,after_bracket,each_bracket]
    by_cases hzero : s.nestingLevel = 0
    · rw [if_pos hzero] at hflag
      rcases ihy hflag hrest with ⟨hrest,hcare'⟩ | ⟨hstuck,hpos,hcare'⟩
      · exact .inl ⟨⟨hrest.1,hrest.2.trans hlevel⟩,⟨hfirst,.inr hzero⟩,hcare,⟨trivial,trivial⟩,
          hcare'⟩
      · exact .inr ⟨hstuck,hpos,fun hall => hcare' hall.2.2.2⟩
    · -- the exit finds the level that was there before and leaves the flag set
      rw [if_neg hzero] at hflag
      have hpos : 0 < s.nestingLevel := by grind
      obtain ⟨hsame',-⟩ := inside_kept hys (hflag.trans hsame.1) (hlevel.symm ▸ hpos) hrest
      refine .inr ⟨hsame'.1.trans (hflag.trans hsame.1),?_,fun hall => ?_⟩
      · exact lt_of_lt_of_eq hpos (hsame'.2.trans hlevel).symm
      · exact hall.1.2.elim (by simp [h]) hzero

/-- An end outside interrupts is at level zero or was careful all along. -/
theorem zero_or_careful (hb : Bracketed calls) (hend : (after nestStep s calls).inIsr = false) :
    (after nestStep s calls).nestingLevel = 0 ∨ (s.inIsr = false ∧
      (after nestStep s calls).nestingLevel = s.nestingLevel ∧ Each nestStep Careful s calls) := by
  induction hb generalizing s with
  | nil => exact .inr ⟨hend,rfl,trivial⟩
  | @lock xs ys _ _ ihx ihy =>
    rw [after_bracket] at hend ⊢
    rcases ihy hend with hzero | ⟨hflag,hkept,hcare'⟩
    · exact .inl hzero
    have hflag : (after nestStep (nestStep s .lock) xs).inIsr = false :=
      unlock_inIsr.symm.trans hflag
    have hunlock : (after nestStep (nestStep s .lock) xs).nestingLevel = 0 →
        (nestStep (after nestStep (nestStep s .lock) xs) .unlock).nestingLevel = 0 :=
      fun hzero => (congrArg Sched.nestingLevel (unlock_zero hzero)).trans hzero
    rcases ihx hflag with hzero | ⟨hopen,hlevel,hcare⟩
    · exact .inl (hkept.trans (hunlock hzero))
    cases hs : s.inIsr with
    | true =>
      have hlock : nestStep s .lock = s := lock_true hs
      rw [hlock,hs] at hopen
      cases hopen
    | false =>
      have hup := (lock_false hs).2
      by_cases hlow : s.nestingLevel < 255
      · obtain ⟨-,hback⟩ := unlock_false hflag (hlevel.trans hup) hlow
        exact .inr ⟨rfl,hkept.trans hback,
          each_bracket.mpr ⟨⟨.inr hlow,trivial⟩,hcare,⟨trivial,trivial⟩,hcare'⟩⟩
      · have hover : s.nestingLevel+1 = 0 := by grind
        exact .inl (hkept.trans (hunlock (hlevel.trans (hup.trans hover))))
  | @isr xs ys _ _ ihx ihy =>
    rw [after_bracket] at hend ⊢
    rcases ihy hend with hzero | ⟨hflag,hkept,-⟩
    · exact .inl hzero
    refine .inl (hkept.trans (exit_false hflag fun hinner => ?_))
    rcases ihx hinner with hzero | ⟨hopen,-⟩
    · exact hzero
    · cases hopen

theorem sameNesting_after (h : SameNesting s s') : SameNesting (after nestStep s calls) (after
    nestStep s' calls) := by
  induction calls generalizing s s' with
  | nil => exact h
  | cons c calls ih =>
    obtain ⟨hflag,hlevel⟩ := h
    refine ih ?_
    cases c with
    | lock =>
      rw [nestStep,nestStep,schedulerLock,schedulerLock,hflag]
      split
      · exact ⟨hflag,hlevel⟩
      · exact ⟨rfl,congrArg (·+1) hlevel⟩
    | unlock =>
      rw [nestStep,nestStep,schedulerUnlock,schedulerUnlock,hflag,hlevel]
      split
      · exact ⟨rfl,rfl⟩
      · exact ⟨hflag,hlevel⟩
    | enterIsr => exact ⟨rfl,congrArg (·+1) hlevel⟩
    | exitIsr =>
      rw [nestStep,nestStep,schedulerExitIsr,schedulerExitIsr,hflag,hlevel]
      exact ⟨rfl,rfl⟩

theorem sameNesting_modifyAt : SameNesting s (s.modifyAt task f) := by
  cases task with
  | none => exact ⟨rfl,rfl⟩
  | some t => exact ⟨rfl,rfl⟩

theorem sameNesting_listAdd : SameNesting s (taskListAdd s i t) :=
  sameNesting_modifyAt

theorem sameNesting_listRemove : SameNesting s (taskListRemove s i t) := by
  rw [taskListRemove]
  cases s.prev t with
  | none => exact sameNesting_modifyAt
  | some p => exact sameNesting_modifyAt

theorem sameNesting_delete (h : taskDelete s task = some s') : SameNesting s s' := by
  cases task with
  | none => cases h
  | some t =>
    rw [taskDelete] at h
    split at h
    · cases h
    obtain ⟨u,hu,rfl⟩ := Option.map_eq_some_iff.mp h
    have hfree : SameNesting u (taskListAdd (u.setState t .terminated) .free t) :=
      sameNesting_listAdd
    have hlist : SameNesting s u := by
      cases hstate : s.state t <;> rw [hstate] at hu <;> cases hu
      · exact sameNesting_listRemove
      · exact sameNesting_listRemove
      · exact ⟨rfl,rfl⟩
      · exact ⟨rfl,rfl⟩
    exact ⟨hfree.1.trans hlist.1,hfree.2.trans hlist.2⟩

def parkedTask : List Op := [.call (.create 2 true true),.call .start,.call .yield]

end TinyDeviceOs.Scheduler
