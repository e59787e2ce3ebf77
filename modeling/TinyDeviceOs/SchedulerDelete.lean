import TinyDeviceOs.SchedulerIdle

/-! Deleting a task twice. `task_delete` does not tell an ended task from a block on the free list.
-/
namespace TinyDeviceOs.Scheduler

open Runs Option

variable {s s' : Sched} {live : TaskId → Bool} {t : TaskId} {m : Machine} {op : Op}

theorem Steady.not_busy_of_free (h : Steady s live lost) (hm : some t ≠ s.main)
    (hl : live t = false) : ¬Busy s t := by
  rintro (he | he | he)
  · exact hm he.symm
  · exact h.ne_current_of_free hm hl he.symm
  · obtain ⟨p,hp⟩ := nextToRun_head he
    have hlive := (home_ready (h.toSettled.head_home hp)).2.1
    simp [hl] at hlive

theorem home_of_free (hm : some t ≠ s.main) (hl : live t = false) : home s live t = some .free := by
  rw [home,if_neg hm,if_pos hl]

def FreeIdle (w : World) : Prop :=
  ∀ t, some t ≠ w.sched.main → w.live t = false → w.sched.state t ≠ .running

theorem Touches.state (h : Touches p s s') (ht : ¬p t) : s'.state t = s.state t :=
  congrArg Prod.fst (h.data t ht)

theorem taskDelete_state (hs : taskDelete s (some t) = some s') : s'.state t = .terminated := by
  rw [taskDelete] at hs
  split_ifs at hs
  obtain ⟨s₁,-,rfl⟩ := map_eq_some_iff.mp hs
  simp

theorem freeIdle_create (h : Steady w.sched w.live lost) (hi : FreeIdle w) :
    FreeIdle (createTask w priority stackOk bootOk) := by
  intro y hm hl
  rcases taskCreate_spec h.threads priority stackOk bootOk with hr | ⟨t,-,hk,-,hready,hout⟩
  · simp only [createTask,hr,mark] at hm hl ⊢
    exact hi y hm hl
  · by_cases hy : t = y
    · subst hy
      simp [createTask,hready]
    · have hlive : (createTask w priority stackOk bootOk).live y = w.live y := by
        rcases hout with hout | hout
        · simp only [createTask,hout,mark]
        · simp only [createTask,hout,mark,if_neg hy]
      rw [hlive] at hl
      have hst : (createTask w priority stackOk bootOk).sched.state y = w.sched.state y :=
        hk.state y hy
      rw [hst]
      exact hi y (hk.main▸hm) hl

theorem freeIdle_delete (hi : FreeIdle w) : FreeIdle (deleteTask w o) := by
  cases o with
  | none => exact hi
  | some t =>
    rw [deleteTask]
    cases hs : taskDelete w.sched (some t) with
    | none => exact hi
    | some s =>
      have ht := touches_taskDelete hs
      intro y hm hl
      change s.state y ≠ .running
      by_cases hy : t = y
      · rw [←hy,taskDelete_state hs]
        decide
      · rw [ht.state fun e => hy (some.inj e)]
        have hlive : unmark w.live t y = false := hl
        rw [unmark,if_neg hy] at hlive
        exact hi y (ht.main▸hm) hlive

section

variable (h : Steady w.sched w.live fun _ => True) (hi : FreeIdle w)
include h hi

theorem freeIdle_other (hlive : (perform w c).live = w.live) (hn : ∀ y, some y ≠ w.sched.main →
    w.live y = false → ¬Names w.sched c y) : FreeIdle (perform w c) := by
  intro y hm hl
  rw [hlive] at hl
  cases ht : tickOf w.sched c with
  | none =>
    have htouch := (perform_touches h ht).1
    have hmain : some y ≠ w.sched.main := htouch.main▸hm
    rw [htouch.state (not_or.mpr ⟨h.not_busy_of_free hmain hl,hn y hmain hl⟩)]
    exact hi y hmain hl
  | some s₁ =>
    obtain ⟨u,rfl,htouch⟩ := perform_ticks h ht
    have hsteady := (alike_setSleepUntil w.sched u).steady h
    have hticked := schedulerTick_spec hsteady
    have hmain' : some y ≠ (schedulerTick (w.sched.setSleepUntil u)).main := htouch.main▸hm
    have hmain : some y ≠ w.sched.main := hticked.main▸hmain'
    have hfree := (schedulerTick_steady hsteady).not_busy_of_free hmain' hl
    have hdata := hticked.data y
    rw [home_of_free (s:=w.sched.setSleepUntil u) hmain hl] at hdata
    simp only [reduceCtorEq,some.injEq,false_and,if_false] at hdata
    have hst : (schedulerTick (w.sched.setSleepUntil u)).state y = w.sched.state y :=
      congrArg Prod.fst hdata
    have hst' : (perform w c).sched.state y = (schedulerTick (w.sched.setSleepUntil u)).state y :=
      htouch.state hfree
    rw [hst',hst]
    exact hi y hmain hl

theorem freeIdle_perform (hl : Legal w c) : FreeIdle (perform w c) := by
  -- a handle that a legal call names is main's or that of a block in use
  have hnamed {o : Option TaskId} (ho : Handle w o) (y : TaskId) (hm : some y ≠ w.sched.main)
      (hy : w.live y = false) : o ≠ some y := fun e => by
    have hlive := (ho y e).resolve_left hm
    simp [hy] at hlive
  cases c with
  | create priority stackOk bootOk => exact freeIdle_create h hi
  | delete o => exact freeIdle_delete hi
  | suspend o => exact freeIdle_other h hi rfl (hnamed hl.1)
  | resume o => exact freeIdle_other h hi rfl fun y hm hy he => hnamed hl y hm hy he.1
  | mainLoop =>
    refine freeIdle_other h hi ?_ fun _ _ _ => id
    rw [perform]
    split_ifs <;> rfl
  | _ => exact freeIdle_other h hi rfl fun _ _ _ => id

end

theorem perform_main (h : Steady w.sched w.live lost) (c : Call) : (perform w c).sched.main =
    w.sched.main := by
  cases ht : tickOf w.sched c with
  | none => exact (perform_touches h ht).1.main
  | some s₁ =>
    obtain ⟨u,rfl,htouch⟩ := perform_ticks h ht
    exact htouch.main.trans (schedulerTick_spec ((alike_setSleepUntil w.sched u).steady h)).main

theorem freeIdle_act (h : Steady m.sched m.live fun _ => True) (hi : FreeIdle m.toWorld)
    (hp : Permitted m op) : FreeIdle (act m op).toWorld := by
  rcases act_cases m op with ⟨c,rfl⟩ | heq | ⟨tick,heq⟩
  · exact freeIdle_perform h hi hp
  · rw [heq]
    exact freeIdle_perform (c:=.yield) h hi trivial
  · rw [heq]
    exact hi

theorem act_main (h : Steady m.sched m.live lost) : (act m op).sched.main = m.sched.main := by
  rcases act_cases m op with ⟨c,rfl⟩ | heq | ⟨tick,heq⟩
  · exact perform_main h c
  · rw [heq]
    exact perform_main h .yield
  · rw [heq]
    rfl

/-- With the handles deleted and not handed out since. -/
structure Log where
  machine : Machine
  gone : TaskId → Bool

def Log.deleted (h : Log) : Op → TaskId → Bool
  | .call (.create priority stackOk bootOk) =>
    match (taskCreate h.machine.sched priority stackOk bootOk).2 with
    | none => h.gone
    | some t => unmark h.gone t
  | .call (.delete (some t)) =>
    if (taskDelete h.machine.sched (some t)).isSome then mark h.gone (some t) else h.gone
  | _ => h.gone

def Log.step (h : Log) (op : Op) : Log := ⟨act h.machine op,h.deleted op⟩

def Log.fresh (s : Sched) : Log := ⟨powerOn s,fun _ => false⟩

def Again (h : Log) : Op → Prop
  | .call (.delete (some t)) => h.gone t = true
  | _ => False

instance decidableAgain (h : Log) (op : Op) : Decidable (Again h op) := by
  unfold Again
  split <;> infer_instance

/-- The rules, except that a deleted handle may be deleted. -/
def Handled (h : Log) (op : Op) : Prop := Permitted h.machine op ∨ Again h op
  deriving Decidable

/-- A deleted handle is refused, no block in use is handed out, and none is free twice. -/
structure DeletedOnce (h : Log) (op : Op) : Prop where
  refused : ∀ t, op = .call (.delete (some t)) → h.gone t = true →
    taskDelete h.machine.sched (some t) = none
  fresh : ∀ priority stackOk bootOk t, op = .call (.create priority stackOk bootOk) →
    (taskCreate h.machine.sched priority stackOk bootOk).2 = some t → h.machine.live t = false
  once : (queue (h.step op).machine.sched .free).Nodup

/-- What the runs keep in which nothing is deleted twice. -/
structure Log.Kept (h : Log) : Prop where
  steady : Steady h.machine.sched h.machine.live fun _ => True
  idle : FreeIdle h.machine.toWorld
  free : ∀ t, h.gone t = true → h.machine.live t = false ∧ some t ≠ h.machine.sched.main

section

variable {h : Log}

theorem kept_fresh (hs : schedulerInit stackOk bootOk = some s) : (Log.fresh s).Kept := by
  have hsound := schedulerInit_sound hs
  refine ⟨⟨hsound.toSettled,hsound.current,fun t ht hr => .inr trivial,hsound.starting⟩,?_,?_⟩
  · intro t hm hl hr
    exact (sound_iff.mp hsound).ne_current_of_free hm hl (hsound.alone t hm hr).symm
  · intro t ht
    cases ht

theorem taskDelete_ne_main (h : Settled s live) (hs : taskDelete s (some t) = some s') :
    some t ≠ s.main := by
  intro hm
  rw [taskDelete] at hs
  split_ifs at hs
  simp [h.main_running hm] at hs

theorem Log.Kept.gone_create (hk : h.Kept) (ht : h.deleted (.call (.create priority stackOk
    bootOk)) t = true) : (createTask h.machine.toWorld priority stackOk bootOk).live t = false ∧
    some t ≠ h.machine.sched.main := by
  rw [Log.deleted] at ht
  rw [createTask]
  cases hc : (taskCreate h.machine.sched priority stackOk bootOk).2 with
  | none =>
    simp only [hc] at ht
    exact hk.free t ht
  | some u =>
    simp only [hc,unmark] at ht
    split_ifs at ht with hut
    obtain ⟨hl,hm⟩ := hk.free t ht
    exact ⟨by simp only [mark,if_neg hut,hl],hm⟩

theorem Log.Kept.gone_delete (hk : h.Kept) (ht : h.deleted (.call (.delete o)) t = true) :
    (deleteTask h.machine.toWorld o).live t = false ∧ some t ≠ h.machine.sched.main := by
  cases o with
  | none => exact hk.free t ht
  | some u =>
    rw [Log.deleted] at ht
    rw [deleteTask]
    cases hd : taskDelete h.machine.sched (some u) with
    | none =>
      simp only [hd,isSome_none,Bool.false_eq_true,if_false] at ht
      exact hk.free t ht
    | some s =>
      simp only [hd,isSome_some,if_true,mark] at ht
      by_cases hut : u = t
      · subst hut
        exact ⟨if_pos rfl,taskDelete_ne_main hk.steady.toSettled hd⟩
      · rw [if_neg hut] at ht
        obtain ⟨hl,hm⟩ := hk.free t ht
        exact ⟨(if_neg hut).trans hl,hm⟩

theorem Log.Kept.gone_free (hk : h.Kept) (ht : h.deleted op t = true) :
    (act h.machine op).live t = false ∧ some t ≠ h.machine.sched.main := by
  by_cases hop : ∃ c, op = .call c
  · obtain ⟨c,rfl⟩ := hop
    cases c with
    | create priority stackOk bootOk => exact hk.gone_create ht
    | delete o => exact hk.gone_delete ht
    | mainLoop =>
      rw [act,perform]
      split_ifs <;> exact hk.free t ht
    | _ => exact hk.free t ht
  · have hgone : h.deleted op = h.gone := by
      cases op with
      | call c => exact absurd ⟨c,rfl⟩ hop
      | _ => rfl
    rw [hgone] at ht
    rcases (act_cases h.machine op).resolve_left hop with heq | ⟨tick,heq⟩
    · rw [heq]
      exact hk.free t ht
    · rw [heq]
      exact hk.free t ht

theorem Log.Kept.step (hk : h.Kept) (hp : Permitted h.machine op) : (h.step op).Kept := by
  refine ⟨act_steady hk.steady hp,freeIdle_act hk.steady hk.idle hp,fun t ht => ?_⟩
  obtain ⟨hl,hm⟩ := hk.gone_free ht
  exact ⟨hl,(act_main hk.steady).symm▸hm⟩

theorem again_iff : Again h op ↔ ∃ t, op = .call (.delete (some t)) ∧ h.gone t = true := by
  constructor
  · intro ha
    unfold Again at ha
    split at ha
    · exact ⟨_,rfl,ha⟩
    · exact ha.elim
  · rintro ⟨t,rfl,ht⟩
    exact ht

theorem Log.Kept.accepts (hk : h.Kept) (ht : h.gone t = true) :
    taskDelete h.machine.sched (some t) ≠ none := by
  obtain ⟨hl,hm⟩ := hk.free t ht
  have hrun := hk.idle t hm hl
  rw [taskDelete,if_neg (hk.steady.ne_current_of_free hm hl)]
  cases hst : h.machine.sched.state t with
  | running => exact absurd hst hrun
  | _ => simp

theorem Log.Kept.deletedOnce_iff (hk : h.Kept) (hh : Handled h op) :
    DeletedOnce h op ↔ ¬Again h op := by
  constructor
  · intro hd ha
    obtain ⟨t,rfl,ht⟩ := again_iff.mp ha
    exact hk.accepts ht (hd.refused t rfl ht)
  · intro hn
    have hp := hh.resolve_right hn
    refine ⟨fun t hop ht => absurd (again_iff.mpr ⟨t,hop,ht⟩) hn,?_,?_⟩
    · intro priority stackOk bootOk t _ hc
      rcases taskCreate_spec hk.steady.threads priority stackOk bootOk with
        hr | ⟨u,hfree,-,-,-,hout⟩
      · rw [hr] at hc
        exact absurd hc.symm (some_ne_none t)
      · rcases hout with hout | hout
        · exact absurd (hc.symm.trans hout) (some_ne_none t)
        · obtain rfl := some.inj (hc.symm.trans hout)
          exact (home_free hfree).2
    · exact ((hk.step hp).steady.threads.queue_spec .free).1.nodup

/-- Every `task_delete` of a deleted handle is refused, no block in use is handed out and none is
free twice, exactly if the run never deletes a deleted handle. -/
theorem task_deleted_once_iff {stackOk bootOk : Bool} (hs : schedulerInit stackOk bootOk = some s)
    (ops : List Op) (hh : Each Log.step Handled (Log.fresh s) ops) :
    Each Log.step DeletedOnce (Log.fresh s) ops ↔
      Each Log.step (fun h op => ¬Again h op) (Log.fresh s) ops := by
  refine each_iff_of_each (I:=Log.Kept) (fun h op hk hh hd => ?_) (fun h op hk hh => ?_)
    (kept_fresh hs) hh
  · exact hk.step (hh.resolve_right ((hk.deletedOnce_iff hh).mp hd))
  · exact hk.deletedOnce_iff hh

/-- The first free block is used, deleted and used again. -/
def reusedBlock : List Op := [.call (.create 2 true true),.call (.delete (booted.heads .free)),
  .call (.create 3 true true),.call .start,.call (.create 4 true true)]

theorem task_deleted_once_iff_reused :
    (taskCreate (after Log.step (Log.fresh booted) (reusedBlock.take 2)).machine.sched 3 true
        true).2 = some 5 ∧
      Each Log.step DeletedOnce (Log.fresh booted) reusedBlock :=
  ⟨by decide +kernel,(task_deleted_once_iff schedulerInit_booted reusedBlock
    (by decide +kernel)).mpr (by decide +kernel)⟩

/-- The task is deleted twice, then two more are created. -/
def deletedTwice : List Op := [.call (.create 2 true true),.call (.delete (booted.heads .free)),
  .call (.delete (booted.heads .free)),.call (.create 3 true true),.call (.create 4 true true)]

/-- The second `task_delete` returns 0, and the two later tasks get the same control block. -/
theorem task_delete_twice :
    Each Log.step Handled (Log.fresh booted) deletedTwice ∧
      (after Log.step (Log.fresh booted) (deletedTwice.take 2)).gone 5 = true ∧
      (taskDelete (after Log.step (Log.fresh booted) (deletedTwice.take 2)).machine.sched
        (some 5)).isSome = true ∧
      ¬(queue (after Log.step (Log.fresh booted) (deletedTwice.take 3)).machine.sched .free).Nodup ∧
      (taskCreate (after Log.step (Log.fresh booted) (deletedTwice.take 3)).machine.sched 3 true
        true).2 = some 5 ∧
      (taskCreate (after Log.step (Log.fresh booted) (deletedTwice.take 4)).machine.sched 4 true
        true).2 = some 5 ∧
      ¬Each Log.step DeletedOnce (Log.fresh booted) deletedTwice := by
  refine ⟨by decide +kernel,by decide +kernel,by decide +kernel,by decide +kernel,
    by decide +kernel,by decide +kernel,fun h => ?_⟩
  obtain ⟨-,-,hd,-⟩ := h
  exact absurd (hd.refused 5 rfl (by decide +kernel)) (by decide +kernel)

end

end TinyDeviceOs.Scheduler
