import TinyDeviceOs.AppTasks

/-! The spin lock of `apps/app.c` in one thread. A thread that enters `app_lock` while it holds
the lock has no next state. -/
namespace TinyDeviceOs.AppLock

open AppTasks Runs List Option

abbrev Name := List UInt8

structure Entry where
  name : Name
  appId : UInt32
  state : AppState
  deriving DecidableEq

structure Thread where
  apps : List Entry
  nextAppId : UInt32
  lock : Bool
  deriving DecidableEq

section

variable (s : Thread)

def appLock : Option Thread := if s.lock then none else some { s with lock := true }

def appUnlock : Thread := { s with lock := false }

def exclusive (work : List Entry → List Entry) : Option Thread :=
  (appLock s).map fun s => appUnlock { s with apps := work s.apps }

section

variable (name : Option Name)

/-- A search under the lock for the first of a name, which is changed after it. -/
def withApp (f : Entry → Entry) : Option Thread :=
  match name with
  | none => some s
  | some name => (exclusive s id).map fun s =>
    { s with apps := s.apps.modify (s.apps.findIdx (·.name = name)) f }

def Entry.move (x y : AppState) (a : Entry) : Entry :=
  if a.state = x then { a with state := y } else a

/-- `ok` tells whether `task_create` succeeds. -/
def appStart (ok : Bool) : Option Thread :=
  withApp s name fun a =>
    if (a.state = .installed ∨ a.state = .stopped) ∧ ok then { a with state := .running } else a

def appStop : Option Thread := withApp s name (Entry.move .running .stopped)

def appSuspend : Option Thread :=
  withApp s name (Entry.move .running .suspended)

def appResume : Option Thread :=
  withApp s name (Entry.move .suspended .running)

/-- `loaded` and `ok` tell what succeeds before and after the search for the name. -/
def appInstall (loaded ok : Bool) : Option Thread :=
  match name with
  | none => some s
  | some name =>
    if loaded = false then some s
    else (exclusive s id).bind fun s =>
      if s.apps.any (·.name = name) ∨ ok = false then some s
      else exclusive { s with nextAppId := s.nextAppId+1 } (⟨name.take 31,s.nextAppId,.installed⟩::·)

def appUninstall : Option Thread :=
  match name with
  | none => some s
  | some name => exclusive s fun apps =>
    match apps.find? (·.name = name) with
    | some a => if a.state = .running then apps else apps.eraseP (·.name = name)
    | none => apps

end

/-- The running application and the installed one behind it. -/
def pick (current : Option Entry) : List Entry → Option Entry × Option Entry
  | [] => (current,none)
  | a::apps =>
    if a.state = .running then pick (some a) apps
    else if current.isSome ∧ a.state = .installed then (current,some a)
    else pick current apps

/-- `none` for the name of no application. -/
def osAppSwitchNext (ok : Bool) : Option Thread :=
  (appLock s).bind fun s =>
    let r := pick none s.apps
    let next := r.2.or (s.apps.find? (·.state = .installed))
    (appStop s (r.1.map Entry.name)).bind fun s =>
      (appStart s (next.map Entry.name) ok).map appUnlock

def osAppQuitCurrent : Option Thread :=
  (exclusive s id).bind fun s => appStop s ((s.apps.find? (·.state = .running)).map Entry.name)

end

/-- Those that only look an application up are `find`. -/
inductive Call
  | init
  | deinit
  | install (name : Option Name) (loaded ok : Bool)
  | uninstall (name : Option Name)
  | start (name : Option Name) (ok : Bool)
  | stop (name : Option Name)
  | suspend (name : Option Name)
  | resume (name : Option Name)
  | find (name : Option Name)
  | findById
  | list (given : Bool)
  | switchNext (ok : Bool)
  | quitCurrent

def act (s : Thread) : Call → Option Thread
  | .init => some ⟨[],1,false⟩
  | .deinit => exclusive s fun _ => []
  | .install name loaded ok => appInstall s name loaded ok
  | .uninstall name => appUninstall s name
  | .start name ok => appStart s name ok
  | .stop name => appStop s name
  | .suspend name => appSuspend s name
  | .resume name => appResume s name
  | .find name => withApp s name id
  | .findById => exclusive s id
  | .list given => if given then exclusive s id else some s
  | .switchNext ok => osAppSwitchNext s ok
  | .quitCurrent => osAppQuitCurrent s

section

variable (s : Option Thread)

def step (c : Call) : Option Thread := s.bind (act · c)

/-- `os_app_switch_next` would stop and start nothing. -/
def Idle : Call → Prop
  | .switchNext _ => ∀ t ∈ s, ∀ a ∈ t.apps, a.state ≠ .running ∧ a.state ≠ .installed
  | _ => True

def Free : Prop := ∃ t, s = some t ∧ t.lock = false

end

section

variable {s : Thread} (h : s.lock = false)
include h

theorem free_exclusive (work : List Entry → List Entry) : Free (exclusive s work) :=
  ⟨{ s with apps := work s.apps },by simp [exclusive,appLock,appUnlock,h],h⟩

theorem free_withApp : Free (withApp s name f) := by
  cases name with
  | none => exact ⟨s,rfl,h⟩
  | some name =>
    obtain ⟨t,ht,hlock⟩ := free_exclusive h id
    rw [withApp,ht]
    exact ⟨_,rfl,hlock⟩

theorem free_install : Free (appInstall s name loaded ok) := by
  cases name with
  | none => exact ⟨s,rfl,h⟩
  | some name =>
    obtain ⟨t,ht,hlock⟩ := free_exclusive h id
    rw [appInstall,ht,bind_some]
    split_ifs
    · exact ⟨s,rfl,h⟩
    · exact ⟨t,rfl,hlock⟩
    · exact free_exclusive (s:={ t with nextAppId := t.nextAppId+1 }) hlock _

end

theorem pick_isSome (current : Option Entry) (apps : List Entry) :
    (pick current apps).1.isSome ↔ current.isSome ∨ ∃ a ∈ apps, a.state = .running := by
  induction apps generalizing current with
  | nil => simp [pick]
  | cons a apps ih =>
    rw [pick]
    split_ifs with hrun hnext
    · simp [ih,hrun]
    · simp [hnext.1]
    · simp [ih,hrun]

theorem pick_snd (h : (pick current apps).1 = none) : (pick current apps).2 = none := by
  induction apps generalizing current with
  | nil => rfl
  | cons a apps ih =>
    rw [pick] at h ⊢
    split_ifs at h ⊢ with hrun hnext
    · exact ih h
    · exact absurd h (isSome_iff_ne_none.mp hnext.1)
    · exact ih h

theorem osAppSwitchNext_isSome {s : Thread} (h : s.lock = false) : (osAppSwitchNext s ok).isSome
    ↔ ∀ a ∈ s.apps, a.state ≠ .running ∧ a.state ≠ .installed := by
  have hpick := pick_isSome none s.apps
  rw [osAppSwitchNext,appLock,h]
  cases hcurrent : (pick none s.apps).1 with
  | some a =>
    rw [hcurrent] at hpick
    obtain ⟨b,hb,hrun⟩ := (hpick.mp rfl).resolve_left Bool.false_ne_true
    simp only [Bool.false_eq_true,if_false,bind_some,hcurrent]
    exact iff_of_false Bool.false_ne_true fun hidle => (hidle b hb).1 hrun
  | none =>
    rw [hcurrent] at hpick
    simp only [Bool.false_eq_true,if_false,bind_some,hcurrent,pick_snd hcurrent,
      none_or]
    cases hnext : s.apps.find? (·.state = .installed) with
    | some b =>
      have hinst : b.state = .installed := by simpa using find?_some hnext
      exact iff_of_false Bool.false_ne_true fun hidle =>
        (hidle b (mem_of_find?_eq_some hnext)).2 hinst
    | none =>
      refine iff_of_true rfl fun a ha => ⟨fun hrun => ?_,?_⟩
      · exact Bool.false_ne_true (hpick.mpr (.inr ⟨a,ha,hrun⟩))
      · simpa using find?_eq_none.mp hnext a ha

theorem osAppSwitchNext_lock {s t : Thread} {ok : Bool} (h : osAppSwitchNext s ok = some t) :
    t.lock = false := by
  obtain ⟨_,-,h⟩ := bind_eq_some_iff.mp h
  obtain ⟨_,-,h⟩ := bind_eq_some_iff.mp h
  obtain ⟨_,-,rfl⟩ := map_eq_some_iff.mp h
  rfl

theorem act_free {s : Thread} (h : s.lock = false) {c : Call} (hc : Idle (some s) c) :
    Free (act s c) := by
  cases c with
  | init => exact ⟨_,rfl,rfl⟩
  | deinit => exact free_exclusive h fun _ => []
  | install name loaded ok => exact free_install h
  | uninstall name =>
    cases name with
    | none => exact ⟨s,rfl,h⟩
    | some name =>
      rw [act,appUninstall]
      exact free_exclusive h _
  | findById => exact free_exclusive h _
  | list given =>
    cases given with
    | false => exact ⟨s,rfl,h⟩
    | true => exact free_exclusive h _
  | switchNext ok =>
    obtain ⟨t,ht⟩ := isSome_iff_exists.mp ((osAppSwitchNext_isSome h).mpr (hc s rfl))
    exact ⟨t,ht,osAppSwitchNext_lock ht⟩
  | quitCurrent =>
    obtain ⟨t,ht,hlock⟩ := free_exclusive h id
    rw [act,osAppQuitCurrent,ht]
    exact free_withApp hlock
  | _ => exact free_withApp h

theorem step_isSome_iff {s : Option Thread} (h : Free s) : (step s c).isSome ↔ Idle s c := by
  obtain ⟨t,rfl,hlock⟩ := h
  constructor
  · intro hsome
    cases c with
    | switchNext ok =>
      intro u hu
      exact some.inj hu ▸ (osAppSwitchNext_isSome hlock).mp hsome
    | _ => trivial
  · intro hc
    obtain ⟨u,hu,-⟩ := act_free hlock hc
    exact isSome_of_eq_some hu

/-- A thread never enters the lock that it holds exactly if every call of `os_app_switch_next`
finds no application that is running or installed. -/
theorem app_lock_free_iff (apps : List Entry) (nextAppId : UInt32) (calls : List Call) :
    (after step (some ⟨apps,nextAppId,false⟩) calls).isSome ↔
      Each step Idle (some ⟨apps,nextAppId,false⟩) calls := by
  refine alive_iff_each (I:=fun s => s.isSome → Free s) (A:=fun s => s.isSome) ?_ ?_ ?_
    (fun _ => ⟨_,rfl,rfl⟩) rfl
  · intro s c hs
    rw [not_isSome_iff_eq_none.mp hs]
    exact Bool.false_ne_true
  · intro s c hfree hs
    exact step_isSome_iff (hfree hs)
  · intro s c hfree hs hnext _
    have hidle := (step_isSome_iff (hfree hs)).mp hnext
    obtain ⟨t,rfl,hlock⟩ := hfree hs
    exact act_free hlock hidle

/-- With an application that runs, `os_app_switch_next` enters the lock twice. -/
theorem switch_next_reenters :
    step (some ⟨[⟨[97],1,.running⟩],2,false⟩) (.switchNext true) = none := by
  decide

end TinyDeviceOs.AppLock
