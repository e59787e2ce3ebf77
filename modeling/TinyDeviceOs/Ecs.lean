import Mathlib.Data.UInt
import TinyDeviceOs.Runs

/-! The entities of `game/ecs.c`. A handle is a slot and its generation, which a destruction raises
modulo 65536. -/
namespace TinyDeviceOs.Ecs

open Runs List Function

def ecsMaxEntities : ℕ := 128
def ecsMaxComponentTypes : ℕ := 16

abbrev Slot := Fin ecsMaxEntities

structure Entity where
  (index generation : UInt16)
  deriving DecidableEq

def ecsNullEntity : Entity := ⟨0xFFFF,0⟩

/-- The data of all slots, at the address `data`. -/
structure ComponentStore where
  componentSize : ℕ
  registered : Bool
  data : ℕ
  present : Slot → Bool

@[ext] structure World where
  generation : Slot → UInt16
  alive : Slot → Bool
  entityCount : UInt32
  components : Fin ecsMaxComponentTypes → ComponentStore

def ecsWorldCreate : World where
  generation := fun _ => 0
  alive := fun _ => false
  entityCount := 0
  components := fun _ => ⟨0,false,0,fun _ => false⟩

def slotOf (e : Entity) : Option Slot :=
  if h : e.index.toNat < ecsMaxEntities then some ⟨e.index.toNat,h⟩ else none

def componentOf (id : ℕ) : Option (Fin ecsMaxComponentTypes) :=
  if h : id < ecsMaxComponentTypes then some ⟨id,h⟩ else none

section

variable (w : World)

def freeSlot : Option Slot := (finRange ecsMaxEntities).find? fun i => w.alive i = false

def handleOf (i : Slot) : Entity := ⟨UInt16.ofNat i,w.generation i⟩

def ecsEntityCreate : Entity × World :=
  match freeSlot w with
  | none => (ecsNullEntity,w)
  | some i => (handleOf w i,
    { w with alive := update w.alive i true, entityCount := w.entityCount+1 })

variable (e : Entity)

def ecsEntityIsAlive : Bool :=
  match slotOf e with
  | none => false
  | some i => w.alive i ∧ w.generation i = e.generation

def clearComponents (i : Slot) : Fin ecsMaxComponentTypes → ComponentStore := fun c =>
  let store := w.components c
  if store.registered then { store with present := update store.present i false }
  else store

def ecsEntityDestroy : World :=
  if ecsEntityIsAlive w e = false then w
  else match slotOf e with
    | none => w
    | some i => { w with
      components := clearComponents w i
      alive := update w.alive i false
      generation := update w.generation i (w.generation i+1)
      entityCount := w.entityCount-1 }

def ecsEntityCount : UInt32 := w.entityCount

def setStore (c : Fin ecsMaxComponentTypes) (store : ComponentStore) : World :=
  { w with components := update w.components c store }

/-- `data` is the memory that `calloc` finds. -/
def ecsComponentRegister (id size : ℕ) (data : Option ℕ) : Bool × World :=
  match componentOf id with
  | none => (false,w)
  | some c =>
    if size = 0 ∨ (w.components c).registered then (false,w)
    else match data with
      | none => (false,w)
      | some data => (true,setStore w c
          { w.components c with data := data, componentSize := size, registered := true })

variable (id : ℕ)

/-- The slot and the store that a call goes to. -/
def liveStore : Option (Slot × Fin ecsMaxComponentTypes) :=
  if ecsEntityIsAlive w e = false then none
  else match slotOf e,componentOf id with
    | some i,some c => if (w.components c).registered then some (i,c) else none
    | _,_ => none

def setPresent (i : Slot) (c : Fin ecsMaxComponentTypes) (present : Bool) : World :=
  setStore w c
    { w.components c with present := update (w.components c).present i present }

def addressOf (i : Slot) (c : Fin ecsMaxComponentTypes) : ℕ :=
  (w.components c).data+i*(w.components c).componentSize

/-- `none` is NULL. -/
def ecsComponentAdd : Option ℕ × World :=
  match liveStore w e id with
  | none => (none,w)
  | some (i,c) => (some (addressOf w i c),setPresent w i c true)

def ecsComponentGet : Option ℕ :=
  match liveStore w e id with
  | none => none
  | some (i,c) => if (w.components c).present i then some (addressOf w i c) else none

def ecsComponentHas : Bool :=
  match liveStore w e id with
  | none => false
  | some (i,c) => (w.components c).present i

def ecsComponentRemove : World :=
  match liveStore w e id with
  | none => w
  | some (i,c) => setPresent w i c false

end

inductive Op
  | create
  | destroy (e : Entity)
  | register (id size : ℕ) (data : Option ℕ)
  | add (e : Entity) (id : ℕ)
  | remove (e : Entity) (id : ℕ)

def step (w : World) : Op → World
  | .create => (ecsEntityCreate w).2
  | .destroy e => ecsEntityDestroy w e
  | .register id size data => (ecsComponentRegister w id size data).2
  | .add e id => (ecsComponentAdd w e id).2
  | .remove e id => ecsComponentRemove w e id

theorem slotOf_eq_some : slotOf e = some i ↔ e.index.toNat = i := by
  rw [slotOf]
  split_ifs with h
  · rw [Option.some.injEq,Fin.ext_iff]
  · refine iff_of_false (by simp) fun heq => h ?_
    rw [heq]
    exact i.isLt

theorem slotOf_handleOf : slotOf (handleOf w i) = some i := by
  rw [slotOf_eq_some,handleOf]
  exact Nat.mod_eq_of_lt (i.isLt.trans (by decide))

theorem isAlive_iff : ecsEntityIsAlive w e = true ↔
    ∃ i, slotOf e = some i ∧ w.alive i = true ∧ w.generation i = e.generation := by
  rw [ecsEntityIsAlive]
  cases slotOf e with
  | none => simp
  | some i => simp

section

variable (h : ecsEntityIsAlive w e = true) (hslot : slotOf e = some i)
include h hslot

theorem eq_handleOf : e = handleOf w i := by
  obtain ⟨j,hj,-,hgeneration⟩ := isAlive_iff.mp h
  obtain rfl := Option.some.inj (hslot.symm.trans hj)
  have hindex : e.index = UInt16.ofNat i := by
    rw [←slotOf_eq_some.mp hslot,UInt16.ofNat_toNat]
  rw [handleOf,hgeneration,←hindex]

theorem ecsEntityDestroy_eq :
    ecsEntityDestroy w e = { w with
      components := clearComponents w i
      alive := update w.alive i false
      generation := update w.generation i (w.generation i+1)
      entityCount := w.entityCount-1 } := by
  simp [ecsEntityDestroy,h,hslot]

end

theorem freeSlot_some (h : freeSlot w = some i) : w.alive i = false := by
  simpa using find?_some h

def destroys (i : Slot) (w : World) : Op → Bool
  | .destroy e => ecsEntityIsAlive w e ∧ slotOf e = some i
  | _ => false

def creates (i : Slot) (w : World) : Op → Bool
  | .create => freeSlot w = some i
  | _ => false

abbrev SameSlots (w w' : World) : Prop :=
  w'.alive = w.alive ∧ w'.generation = w.generation ∧ w'.entityCount = w.entityCount

theorem ecsComponentRegister_slots (id size : ℕ) (data : Option ℕ) :
    SameSlots w (ecsComponentRegister w id size data).2 := by
  rw [ecsComponentRegister]
  cases componentOf id with
  | none => exact ⟨rfl,rfl,rfl⟩
  | some c =>
    dsimp only
    split_ifs
    · exact ⟨rfl,rfl,rfl⟩
    · cases data <;> exact ⟨rfl,rfl,rfl⟩

theorem ecsComponentAdd_slots (e : Entity) (id : ℕ) : SameSlots w (ecsComponentAdd w e id).2 := by
  rw [ecsComponentAdd]
  cases liveStore w e id <;> exact ⟨rfl,rfl,rfl⟩

theorem ecsComponentRemove_slots (e : Entity) (id : ℕ) :
    SameSlots w (ecsComponentRemove w e id) := by
  rw [ecsComponentRemove]
  cases liveStore w e id <;> exact ⟨rfl,rfl,rfl⟩

/-- What a call does to the slots. -/
theorem step_cases (w : World) (op : Op) :
    (∃ i, creates i w op = true ∧ op = .create ∧ w.alive i = false ∧
      (step w op).alive = update w.alive i true ∧
      (step w op).generation = w.generation ∧ (step w op).entityCount = w.entityCount+1) ∨
    (∃ i, destroys i w op = true ∧ op = .destroy (handleOf w i) ∧ w.alive i = true ∧
      (step w op).alive = update w.alive i false ∧
      (step w op).generation = update w.generation i (w.generation i+1) ∧
      (step w op).entityCount = w.entityCount-1) ∨
    ((∀ i, creates i w op = false) ∧ (∀ i, destroys i w op = false) ∧
      (step w op).alive = w.alive ∧ (step w op).generation = w.generation ∧
      (step w op).entityCount = w.entityCount) := by
  cases op with
  | create =>
    cases hfree : freeSlot w with
    | none => exact .inr (.inr (by simp [creates,destroys,step,ecsEntityCreate,hfree]))
    | some i => exact .inl ⟨i,by simp [creates,hfree],rfl,freeSlot_some hfree,
        by simp [step,ecsEntityCreate,hfree]⟩
  | destroy e =>
    cases halive : ecsEntityIsAlive w e with
    | false => exact .inr (.inr (by simp [creates,destroys,step,ecsEntityDestroy,halive]))
    | true =>
      obtain ⟨i,hslot,hi,-⟩ := isAlive_iff.mp halive
      refine .inr (.inl ⟨i,by simp [destroys,halive,hslot],?_,hi,?_⟩)
      · rw [←eq_handleOf halive hslot]
      · simp only [step,ecsEntityDestroy_eq halive hslot,and_self]
  | register id size data =>
    exact .inr (.inr ⟨fun _ => rfl,fun _ => rfl,ecsComponentRegister_slots id size data⟩)
  | add e id => exact .inr (.inr ⟨fun _ => rfl,fun _ => rfl,ecsComponentAdd_slots e id⟩)
  | remove e id => exact .inr (.inr ⟨fun _ => rfl,fun _ => rfl,ecsComponentRemove_slots e id⟩)

def worldAfter (ops : List Op) : World := after step ecsWorldCreate ops

/-- How often a run destroys an entity in a slot. -/
def destroyed (ops : List Op) (i : Slot) : ℕ :=
  total step (fun w op => (destroys i w op).toNat) ecsWorldCreate ops

theorem worldAfter_append : worldAfter (ops++[op]) = step (worldAfter ops) op := after_append

theorem destroyed_append : destroyed (ops++[op]) i = destroyed ops i+(destroys i (worldAfter
    ops) op).toNat := total_append

theorem destroyed_le_append (before later : List Op) (i : Slot) :
    destroyed before i ≤ destroyed (before++later) i := by
  rw [destroyed,destroyed,total_append]
  exact Nat.le_add_right _ _

theorem destroys_unique (h : destroys i w op = true) (hj : j ≠ i) : destroys j w op = false := by
  cases op with
  | destroy e =>
    obtain ⟨-,hslot⟩ := of_decide_eq_true h
    refine decide_eq_false fun h' => hj ?_
    exact Option.some.inj (h'.2.symm.trans hslot)
  | create => rfl
  | register id size data => rfl
  | add e id => rfl
  | remove e id => rfl

/-- It counts, modulo 65536, how often the slot was destroyed. -/
theorem generation_eq : (worldAfter ops).generation i = UInt16.ofNat (destroyed ops i) := by
  induction ops using reverseRecOn with
  | nil => rfl
  | append_singleton ops op ih =>
    rw [worldAfter_append,destroyed_append]
    rcases step_cases (worldAfter ops) op with
      ⟨j,-,rfl,-,-,hgeneration,-⟩ | ⟨j,hj,-,-,-,hgeneration,-⟩ | ⟨-,hnone,-,hgeneration,-⟩
    · rw [hgeneration,ih]
      rfl
    · rw [hgeneration]
      by_cases hij : i = j
      · rw [hij] at ih ⊢
        rw [update_self,ih,hj,UInt16.ofNat_add]
        rfl
      · rw [update_of_ne hij,ih,destroys_unique hj hij]
        rfl
    · rw [hgeneration,ih,hnone i]
      rfl

theorem exists_destroy (ops : List Op) (h : k < destroyed ops i) : ∃ before e later, ops =
    before++.destroy e::later ∧ ecsEntityIsAlive (worldAfter before) e = true ∧ slotOf e = some
    i ∧ destroyed before i = k := by
  induction ops using reverseRecOn with
  | nil => exact absurd h (Nat.not_lt_zero k)
  | append_singleton ops op ih =>
    by_cases hk : k < destroyed ops i
    · obtain ⟨before,e,later,rfl,halive,hslot,hcount⟩ := ih hk
      exact ⟨before,e,later++[op],by simp,halive,hslot,hcount⟩
    · rw [destroyed_append] at h
      have hlast : destroys i (worldAfter ops) op = true := by
        by_contra hno
        rw [Bool.eq_false_of_not_eq_true hno] at h
        exact hk h
      have hk' : destroyed ops i = k := by
        rw [hlast] at h
        exact le_antisymm (not_lt.mp hk) (Nat.lt_succ_iff.mp h)
      cases op with
      | destroy e =>
        obtain ⟨halive,hslot⟩ := of_decide_eq_true hlast
        exact ⟨ops,e,[],rfl,halive,hslot,hk'⟩
      | _ => cases hlast

def liveCount (alive : Slot → Bool) : ℕ := (Finset.univ.filter fun i => alive i = true).card

theorem liveCount_create (h : alive i = false) : liveCount (update alive i true) = liveCount
    alive+1 := by
  have hinsert : (Finset.univ.filter fun j => update alive i true j = true) =
      insert i (Finset.univ.filter fun j => alive j = true) := by
    ext j
    by_cases hj : j = i <;> simp [hj]
  rw [liveCount,hinsert,Finset.card_insert_of_notMem (by simp [h])]
  rfl

theorem liveCount_destroy (h : alive i = true) : liveCount (update alive i false)+1 = liveCount
    alive := by
  have hback : alive = update (update alive i false) i true := by
    rw [update_idem,←h,update_eq_self]
  conv_rhs => rw [hback]
  exact (liveCount_create (update_self i false alive)).symm

theorem entityCount_eq : (worldAfter ops).entityCount = UInt32.ofNat (liveCount (worldAfter
    ops).alive) := by
  induction ops using reverseRecOn with
  | nil => decide
  | append_singleton ops op ih =>
    rw [worldAfter_append]
    rcases step_cases (worldAfter ops) op with
      ⟨j,-,-,hj,halive,-,hcount⟩ | ⟨j,-,-,hj,halive,-,hcount⟩ | ⟨-,-,halive,-,hcount⟩
    · rw [halive,hcount,ih,liveCount_create hj,UInt32.ofNat_add]
      rfl
    · rw [halive,hcount,ih,←liveCount_destroy hj,UInt32.ofNat_add]
      exact UInt32.add_sub_cancel _ _
    · rw [halive,hcount,ih]

theorem entityCount_toNat : (ecsEntityCount (worldAfter ops)).toNat = liveCount (worldAfter
    ops).alive := by
  have hle : liveCount (worldAfter ops).alive ≤ 128 :=
    (Finset.card_filter_le _ _).trans (Finset.card_fin 128).le
  rw [ecsEntityCount,entityCount_eq]
  exact UInt32.toNat_ofNat_of_lt' (by change _ < 4294967296; omega)

/-- Every call reports the handle dead. -/
structure Dead (w : World) (e : Entity) : Prop where
  isAlive : ecsEntityIsAlive w e = false
  get : ∀ id, ecsComponentGet w e id = none
  add : ∀ id, (ecsComponentAdd w e id).1 = none
  has : ∀ id, ecsComponentHas w e id = false

theorem dead_of_isAlive_false (h : ecsEntityIsAlive w e = false) : Dead w e := by
  have hstore (id : ℕ) : liveStore w e id = none := by rw [liveStore,if_pos h]
  exact ⟨h,fun id => by rw [ecsComponentGet,hstore],fun id => by rw [ecsComponentAdd,hstore],
    fun id => by rw [ecsComponentHas,hstore]⟩

/-- Destroyed handles are dead, a new one is none of them, and live ones are counted. -/
structure Reports (ops : List Op) : Prop where
  stale : ∀ before e later rest, ops = before++.destroy e::(later++rest) →
    ecsEntityIsAlive (worldAfter before) e = true → Dead (worldAfter (before++.destroy e::later)) e
  fresh : ∀ before e later rest, ops = before++.destroy e::(later++.create::rest) →
    ecsEntityIsAlive (worldAfter before) e = true →
    (ecsEntityCreate (worldAfter (before++.destroy e::later))).1 ≠ e
  count : ∀ before rest, ops = before++rest →
    (ecsEntityCount (worldAfter before)).toNat = liveCount (worldAfter before).alive

/-- A slot is used again only after less than 65536 destructions. -/
def Reusable (before : List Op) (op : Op) : Prop :=
  ∀ i, creates i (worldAfter before) op = true → destroyed before i < 65536

theorem destroyed_lt (h : AtEach Reusable ops) (halive : (worldAfter ops).alive i = true) :
    destroyed ops i < 65536 := by
  induction ops using reverseRecOn with
  | nil => cases halive
  | append_singleton ops op ih =>
    obtain ⟨hops,hop⟩ := atEach_append.mp h
    rw [worldAfter_append] at halive
    rw [destroyed_append]
    rcases step_cases (worldAfter ops) op with
      ⟨j,hj,rfl,-,hstep,-⟩ | ⟨j,hj,-,-,hstep,-⟩ | ⟨-,hnone,hstep,-⟩
    · rw [hstep] at halive
      by_cases hij : i = j
      · exact hij▸hop j hj
      · rw [update_of_ne hij] at halive
        exact ih hops halive
    · rw [hstep] at halive
      have hij : i ≠ j := fun hij => by
        rw [hij,update_self] at halive
        cases halive
      rw [update_of_ne hij] at halive
      rw [destroys_unique hj hij]
      exact ih hops halive
    · rw [hstep] at halive
      rw [hnone i]
      exact ih hops halive

theorem dead_of_reusable (h : AtEach Reusable (before++.destroy e::later)) (halive :
    ecsEntityIsAlive (worldAfter before) e = true) : ecsEntityIsAlive (worldAfter
    (before++.destroy e::later)) e = false := by
  obtain ⟨i,hslot,hi,hgeneration⟩ := isAlive_iff.mp halive
  have hcount : destroyed (before++[.destroy e]) i = destroyed before i+1 := by
    rw [destroyed_append]
    simp [destroys,halive,hslot]
  have hmore := destroyed_le_append (before++[.destroy e]) later i
  rw [append_assoc,singleton_append,hcount] at hmore
  by_contra hno
  obtain ⟨j,hslot',hj,hgeneration'⟩ := isAlive_iff.mp (Bool.eq_true_of_not_eq_false hno)
  obtain rfl := Option.some.inj (hslot.symm.trans hslot')
  have hlt := destroyed_lt h hj
  rw [generation_eq] at hgeneration hgeneration'
  have hsame := congrArg UInt16.toNat (hgeneration'.trans hgeneration.symm)
  rw [UInt16.toNat_ofNat_of_lt' hlt,UInt16.toNat_ofNat_of_lt' (by change _ < 65536; omega)] at hsame
  omega

theorem isAlive_created (h : freeSlot w = some i) : (ecsEntityCreate w).1 = handleOf w i ∧
    ecsEntityIsAlive (step w .create) (handleOf w i) = true := by
  refine ⟨by simp [ecsEntityCreate,h],isAlive_iff.mpr ⟨i,slotOf_handleOf,?_⟩⟩
  simp [step,ecsEntityCreate,h,handleOf]

theorem ecsEntityCreate_ne (halive : ecsEntityIsAlive before e = true) (hdead : ecsEntityIsAlive
    (step w .create) e = false) : (ecsEntityCreate w).1 ≠ e := by
  intro hsame
  cases hfree : freeSlot w with
  | none =>
    rw [ecsEntityCreate,hfree] at hsame
    obtain ⟨i,hslot,-⟩ := isAlive_iff.mp halive
    rw [←hsame] at hslot
    exact Option.some_ne_none i hslot.symm
  | some i =>
    obtain ⟨hhandle,hcreated⟩ := isAlive_created hfree
    rw [←hhandle,hsame,hdead] at hcreated
    cases hcreated

theorem exists_equal_handle (hfree : freeSlot (worldAfter ops) = some i) (hmany : 65536 ≤
    destroyed ops i) : ∃ l e r, ops = l++.destroy e::r ∧ ecsEntityIsAlive (worldAfter l) e =
    true ∧ (ecsEntityCreate (worldAfter ops)).1 = e := by
  obtain ⟨l,e,r,hops,halive,hslot,hcount⟩ :=
    exists_destroy ops (i:=i) (k:=destroyed ops i-65536) (by omega)
  have hgeneration : (worldAfter l).generation i = (worldAfter ops).generation i := by
    rw [generation_eq,generation_eq,hcount]
    apply UInt16.toNat_inj.mp
    rw [UInt16.toNat_ofNat',UInt16.toNat_ofNat']
    omega
  refine ⟨l,e,r,hops,halive,?_⟩
  rw [(isAlive_created hfree).1,handleOf,←hgeneration]
  exact (eq_handleOf halive hslot).symm

theorem creates_eq_true : creates i w op = true ↔ op = .create ∧ freeSlot w = some i := by
  cases op <;> simp [creates]

/-- Destroyed handles are reported dead for the rest of a run exactly when no slot is used again
after it was destroyed 65536 times. -/
theorem stale_handles_iff (ops : List Op) : Reports ops ↔ AtEach Reusable ops := by
  constructor
  · intro h before op rest hsplit i hcreates
    by_contra hmany
    obtain ⟨rfl,hfree⟩ := creates_eq_true.mp hcreates
    obtain ⟨l,e,r,rfl,halive,hequal⟩ := exists_equal_handle hfree (not_lt.mp hmany)
    exact h.fresh l e r rest (by simp [hsplit]) halive hequal
  · intro h
    refine ⟨fun before e later rest hops halive => ?_,fun before e later rest hops halive => ?_,
      fun before rest _ => entityCount_toNat⟩
    · have hsplit : AtEach Reusable ((before++.destroy e::later)++rest) := by
        simpa [hops] using h
      exact dead_of_isAlive_false (dead_of_reusable hsplit.left halive)
    · have hsplit : AtEach Reusable ((before++.destroy e::(later++[.create]))++rest) := by
        simpa [hops] using h
      have hdead := dead_of_reusable hsplit.left halive
      rw [←cons_append,←append_assoc,worldAfter_append] at hdead
      exact ecsEntityCreate_ne halive hdead

/-- The first slot is created and destroyed, again and again. -/
def rounds (generation : ℕ) : ℕ → List Op
  | 0 => []
  | n+1 => .create::.destroy ⟨0,UInt16.ofNat generation⟩::rounds (generation+1) n

def firstSlot : Slot := ⟨0,Nat.succ_pos 127⟩

def emptied (generation : ℕ) : World := { ecsWorldCreate with
  generation := update ecsWorldCreate.generation firstSlot (UInt16.ofNat generation) }

theorem after_round (generation : ℕ) : step (step (emptied generation) .create)
    (.destroy ⟨0,UInt16.ofNat generation⟩) = emptied (generation+1) := by
  have hslot : slotOf ⟨0,UInt16.ofNat generation⟩ = some firstSlot := rfl
  have hgeneration : (emptied generation).generation firstSlot = UInt16.ofNat generation := by
    simp [emptied]
  have hcreated : step (emptied generation) .create = ⟨(emptied generation).generation,
      update (emptied generation).alive firstSlot true,1,
      (emptied generation).components⟩ := rfl
  have halive : ecsEntityIsAlive (step (emptied generation) .create)
      ⟨0,UInt16.ofNat generation⟩ = true :=
    isAlive_iff.mpr ⟨firstSlot,hslot,by simp [hcreated],hgeneration⟩
  refine (ecsEntityDestroy_eq halive hslot).trans ?_
  rw [hcreated]
  ext1
  · change update (emptied generation).generation firstSlot
      ((emptied generation).generation firstSlot+1) = _
    rw [hgeneration,emptied,emptied,update_idem,UInt16.ofNat_add]
    rfl
  · change update (update (emptied generation).alive firstSlot true) firstSlot
      false = _
    rw [update_idem]
    exact update_eq_self firstSlot _
  · exact UInt32.sub_self 1
  · rfl

theorem after_rounds : after step (emptied generation) (rounds generation n) = emptied
    (generation+n) := by
  induction n generalizing generation with
  | zero => rfl
  | succ n ih =>
    rw [rounds,after_cons,after_cons,after_round,ih]
    congr 1
    omega

/-- After 65536 rounds the first handle comes back. -/
theorem stale_handle_alive_again :
    ∃ later, rounds 0 65536 = [.create]++.destroy ⟨0,0⟩::later ∧
      ecsEntityIsAlive (worldAfter [.create]) ⟨0,0⟩ = true ∧
      (ecsEntityCreate (worldAfter (rounds 0 65536))).1 = ⟨0,0⟩ ∧
      ecsEntityIsAlive (worldAfter (rounds 0 65536++[.create])) ⟨0,0⟩ = true := by
  have hstart : ecsWorldCreate = emptied 0 := by
    rw [emptied,show UInt16.ofNat 0 = ecsWorldCreate.generation firstSlot from rfl,
      update_eq_self]
  have hafter : worldAfter (rounds 0 65536) = emptied 0 := by
    rw [worldAfter,hstart,after_rounds]
    rfl
  refine ⟨rounds 1 65535,rfl,by decide,?_,?_⟩
  · rw [hafter]
    decide
  · rw [worldAfter_append,hafter]
    decide

end TinyDeviceOs.Ecs
